import Covenant.Proofs.Lexing

/-!
# Scanning is local

What a number is read as depends on the characters it takes and not on the rest behind them, as long
as the rest is detached from it. What was read of a string stays in its text. The source form of a
value stands on one line, and its first character belongs to no symbol or comment begun before it.

## Main definitions

* `Lexer.Part` : the characters of a number in front of a rest.
* `Lexer.Inert` : a character that white space, comments and symbols do not take in.
* `Value.opensText` : what the source form of a value may begin with.

## Main results

* `Lexer.scanNumber_local` : a number with another rest behind it.
* `Lexer.mem_of_scanString` : a character that was read once is in the text of the string.
* `Value.newline_notMem_render`, `Value.exists_cons_render` : the source form of a value.
-/

namespace Covenant

namespace Lexer

/-! ### Numbers -/

/-- Characters that do not go on with digits. -/
def Halts (cs : List Char) : Prop :=
  ∀ c ∈ cs.head?, Text.isDigit c = false ∧ c ≠ '_'

/-- A scanned part of a text: ASCII characters in front of a rest that begins with no digit. -/
structure Part (cs run rest : List Char) : Prop where
  split : cs = run ++ rest
  ascii : ∀ c ∈ run, c.toNat < 128
  ahead : digitAhead rest = false

theorem digitAhead_append_of {cs : List Char} (h : digitAhead cs = true) (rest : List Char) :
    digitAhead (cs ++ rest) = true := by
  rcases cs with _ | ⟨c, cs⟩
  · cases h
  · exact h

theorem scanDigits_halts {more : List Char} (h : Halts more) : scanDigits more = ([], 0, more) :=
  @scanDigits_append [] more (by simp) h

/-- Digits with another rest behind them. -/
theorem scanDigits_local {cs digits rest : List Char} {taken : Nat}
    (h : scanDigits cs = (digits, taken, rest)) :
    ∃ run, Part cs run rest ∧ (digitAhead cs = true → digitAhead run = true) ∧
      ∀ more, Halts more → scanDigits (run ++ more) = (digits, taken, more) := by
  induction cs generalizing digits taken with
  | nil =>
    cases h
    exact ⟨[], ⟨rfl, by simp, rfl⟩, id, fun more hmore => scanDigits_halts hmore⟩
  | cons c cs ih =>
    rw [scanDigits] at h
    rcases hscan : scanDigits cs with ⟨digits', taken', rest'⟩
    rw [hscan] at h
    by_cases hdigit : Text.isDigit c = true
    · rw [if_pos hdigit] at h
      cases h
      obtain ⟨run, hpart, -, hmore⟩ := ih hscan
      refine ⟨c :: run, ⟨by rw [hpart.split]; rfl, ?_, hpart.ahead⟩, fun _ => hdigit,
        fun more hhalts => ?_⟩
      · exact List.forall_mem_cons.mpr ⟨toNat_lt_of_isDigit hdigit, hpart.ascii⟩
      · simp only [List.cons_append, scanDigits, hdigit, if_true, hmore more hhalts]
    · rw [if_neg hdigit] at h
      by_cases hunderscore : (c = '_' && digitAhead cs) = true
      · rw [if_pos hunderscore] at h
        cases h
        obtain ⟨run, hpart, hahead, hmore⟩ := ih hscan
        simp only [Bool.and_eq_true, decide_eq_true_eq] at hunderscore
        obtain ⟨rfl, hcs⟩ := hunderscore
        refine ⟨'_' :: run, ⟨by rw [hpart.split]; rfl, ?_, hpart.ahead⟩, id,
          fun more hhalts => ?_⟩
        · exact List.forall_mem_cons.mpr ⟨by decide, hpart.ascii⟩
        · have hnext := digitAhead_append_of (hahead hcs) more
          simp only [List.cons_append, scanDigits, hdigit, hnext, hmore more hhalts]
          rfl
      · rw [if_neg hunderscore] at h
        cases h
        refine ⟨[], ⟨rfl, by simp, by simpa [digitAhead] using hdigit⟩, fun hcs => ?_,
          fun more hmore => scanDigits_halts hmore⟩
        exact absurd hcs hdigit

theorem scanFraction_local {cs digits rest : List Char} {taken : Nat}
    (h : scanFraction cs = some (digits, taken, rest)) :
    ∃ run, Part cs ('.' :: run) rest ∧
      ∀ more, Halts more → scanFraction ('.' :: run ++ more) = some (digits, taken, more) := by
  unfold scanFraction at h
  split at h
  · rename_i tail
    by_cases hahead : digitAhead tail = true
    · rw [if_pos hahead] at h
      rcases hscan : scanDigits tail with ⟨digits', taken', rest'⟩
      rw [hscan] at h
      cases h
      obtain ⟨run, hpart, hrun, hmore⟩ := scanDigits_local hscan
      refine ⟨run, ⟨by rw [hpart.split]; rfl, ?_, hpart.ahead⟩, fun more hhalts => ?_⟩
      · exact List.forall_mem_cons.mpr ⟨by decide, hpart.ascii⟩
      · simp only [List.cons_append, scanFraction, digitAhead_append_of (hrun hahead) more,
          hmore more hhalts, if_true]
    · rw [if_neg hahead] at h
      cases h
  · cases h

theorem scanSigned_local {negative : Bool} {marks taken : Nat} {cs rest : List Char}
    {exponent : Int} (h : scanSigned negative marks cs = some (exponent, taken, rest)) :
    ∃ run, Part cs run rest ∧ digitAhead run = true ∧ ∀ more, Halts more →
      scanSigned negative marks (run ++ more) = some (exponent, taken, more) := by
  unfold scanSigned at h
  by_cases hahead : digitAhead cs = true
  · rw [if_pos hahead] at h
    rcases hscan : scanDigits cs with ⟨digits, taken', rest'⟩
    rw [hscan] at h
    cases h
    obtain ⟨run, hpart, hrun, hmore⟩ := scanDigits_local hscan
    refine ⟨run, hpart, hrun hahead, fun more hhalts => ?_⟩
    simp only [scanSigned, digitAhead_append_of (hrun hahead) more, hmore more hhalts, if_true]
  · rw [if_neg hahead] at h
    cases h

theorem scanExponent_local {cs rest : List Char} {taken : Nat} {exponent : Int}
    (h : scanExponent cs = some (exponent, taken, rest)) :
    ∃ mark run, (mark = 'e' ∨ mark = 'E') ∧ Part cs (mark :: run) rest ∧ ∀ more, Halts more →
      scanExponent (mark :: run ++ more) = some (exponent, taken, more) := by
  unfold scanExponent at h
  split at h
  · rename_i mark tail
    by_cases hmark : (mark = 'e' || mark = 'E') = true
    · rw [if_pos hmark] at h
      have hmark' : mark = 'e' ∨ mark = 'E' := by simpa using hmark
      have hascii : mark.toNat < 128 := by rcases hmark' with rfl | rfl <;> decide
      split at h
      · obtain ⟨run, hpart, -, hmore⟩ := scanSigned_local h
        refine ⟨mark, '+' :: run, hmark', ⟨by rw [hpart.split]; rfl, ?_, hpart.ahead⟩,
          fun more hhalts => ?_⟩
        · exact List.forall_mem_cons.mpr ⟨hascii, List.forall_mem_cons.mpr ⟨by decide, hpart.ascii⟩⟩
        · simp only [List.cons_append, scanExponent, hmark, if_true, hmore more hhalts]
      · obtain ⟨run, hpart, -, hmore⟩ := scanSigned_local h
        refine ⟨mark, '-' :: run, hmark', ⟨by rw [hpart.split]; rfl, ?_, hpart.ahead⟩,
          fun more hhalts => ?_⟩
        · exact List.forall_mem_cons.mpr ⟨hascii, List.forall_mem_cons.mpr ⟨by decide, hpart.ascii⟩⟩
        · simp only [List.cons_append, scanExponent, hmark, if_true, hmore more hhalts]
      · obtain ⟨run, hpart, hrun, hmore⟩ := scanSigned_local h
        refine ⟨mark, run, hmark', ⟨by rw [hpart.split]; rfl, ?_, hpart.ahead⟩,
          fun more hhalts => ?_⟩
        · exact List.forall_mem_cons.mpr ⟨hascii, hpart.ascii⟩
        · -- the run begins with a digit, so it is not taken for a sign
          obtain ⟨d, run, rfl⟩ : ∃ d run', run = d :: run' := by
            rcases run with _ | ⟨d, run⟩
            · cases hrun
            · exact ⟨d, run, rfl⟩
          obtain ⟨hplus, hminus⟩ := Number.ne_sign_of_isDigit (c := d) hrun
          have hscan := hmore more hhalts
          simp only [List.cons_append] at hscan
          simp [scanExponent, hmark, hplus, hminus, hscan]
    · rw [if_neg hmark] at h
      cases h
  · cases h

theorem Detached.halts {cs : List Char} (h : Detached cs) : Halts cs :=
  fun c hc => (h.head c hc).1

/-- Whether a token is a literal number. -/
def isNumeric : Token.Kind → Bool
  | .integer _ | .number _ => true
  | _ => false

theorem numberLiteral_local {p : Position} {d : Number.Decimal} {kind : Token.Kind}
    (h : numberLiteral p d = .ok kind) :
    isNumeric kind = true ∧ ∀ q, numberLiteral q d = .ok kind := by
  unfold numberLiteral at h ⊢
  by_cases hfinite : d.toDouble.isFinite = true
  · simp only [hfinite, if_true] at h ⊢
    cases h
    exact ⟨rfl, fun _ => rfl⟩
  · simp only [hfinite] at h
    cases h

theorem integerLiteral_local {p : Position} {digits : List Char} {kind : Token.Kind}
    (h : integerLiteral p digits = .ok kind) :
    isNumeric kind = true ∧ ∀ q, integerLiteral q digits = .ok kind := by
  unfold integerLiteral at h ⊢
  split at h
  · cases h
    exact ⟨rfl, fun _ => rfl⟩
  · cases h

/-- The exponent of a number, if it has one, with another rest behind it. -/
theorem exists_exponent {cs : List Char} (hcs : digitAhead cs = false) :
    ∃ run rest, Part cs run rest ∧
      (scanExponent cs = none ∧ run = [] ∧ rest = cs ∨
        ∃ exponent taken, scanExponent cs = some (exponent, taken, rest)) ∧
      ∀ more, Detached more → Halts (run ++ more) ∧ scanFraction (run ++ more) = none ∧
        scanExponent (run ++ more) = (scanExponent cs).map fun e => (e.1, e.2.1, more) := by
  rcases hexponent : scanExponent cs with _ | ⟨exponent, taken, rest⟩
  · refine ⟨[], cs, ⟨rfl, by simp, hcs⟩, .inl ⟨rfl, rfl, rfl⟩, fun more hmore => ?_⟩
    exact ⟨hmore.halts, hmore.scanFraction, hmore.scanExponent⟩
  · obtain ⟨mark, run, hmark, hpart, hmore⟩ := scanExponent_local hexponent
    refine ⟨mark :: run, rest, hpart, .inr ⟨exponent, taken, rfl⟩, fun more hdetached => ?_⟩
    refine ⟨?_, ?_, hmore more hdetached.halts⟩
    · rintro c ⟨⟩
      rcases hmark with rfl | rfl <;> decide
    · rcases hmark with rfl | rfl <;> rfl

/-- The fraction of a number, if it has one, with another rest behind it. -/
theorem exists_fraction {cs : List Char} (hcs : digitAhead cs = false) :
    ∃ run rest, Part cs run rest ∧
      (scanFraction cs = none ∧ run = [] ∧ rest = cs ∨
        ∃ digits taken, scanFraction cs = some (digits, taken, rest)) ∧
      ∀ more, Halts more → scanFraction more = none → Halts (run ++ more) ∧
        scanFraction (run ++ more) = (scanFraction cs).map fun f => (f.1, f.2.1, more) := by
  rcases hfraction : scanFraction cs with _ | ⟨digits, taken, rest⟩
  · exact ⟨[], cs, ⟨rfl, by simp, hcs⟩, .inl ⟨rfl, rfl, rfl⟩,
      fun more hmore hnone => ⟨hmore, hnone⟩⟩
  · obtain ⟨run, hpart, hmore⟩ := scanFraction_local hfraction
    refine ⟨'.' :: run, rest, hpart, .inr ⟨digits, taken, rfl⟩, fun more hhalts _ => ?_⟩
    refine ⟨?_, hmore more hhalts⟩
    rintro c ⟨⟩
    decide

/-- Two parts one after the other. -/
theorem Part.append {cs run rest run' rest' : List Char} (h : Part cs run rest)
    (h' : Part rest run' rest') : Part cs (run ++ run') rest' where
  split := by rw [h.split, h'.split, List.append_assoc]
  ascii := List.forall_mem_append.mpr ⟨h.ascii, h'.ascii⟩
  ahead := h'.ahead

/-- A number with another rest behind it that does not belong to it. -/
theorem scanNumber_local {p : Position} {cs rest : List Char} {kind : Token.Kind} {p' : Position}
    (hcs : digitAhead cs = true) (h : scanNumber p cs = .ok (kind, ⟨p', rest⟩)) :
    isNumeric kind = true ∧ ∃ run, Part cs run rest ∧ digitAhead run = true ∧
      ∀ more, Detached more → ∀ q, ∃ q', scanNumber q (run ++ more) = .ok (kind, ⟨q', more⟩) := by
  rcases hwhole : scanDigits cs with ⟨whole, taken, rest₁⟩
  obtain ⟨run₁, hpart₁, hahead₁, hmore₁⟩ := scanDigits_local hwhole
  obtain ⟨run₂, rest₂, hpart₂, hfraction, hmore₂⟩ := exists_fraction hpart₁.ahead
  obtain ⟨run₃, rest₃, hpart₃, hexponent, hmore₃⟩ := exists_exponent hpart₂.ahead
  have hscan (more : List Char) (hmore : Detached more) :
      scanDigits (run₁ ++ (run₂ ++ (run₃ ++ more))) = (whole, taken, run₂ ++ (run₃ ++ more)) ∧
        scanFraction (run₂ ++ (run₃ ++ more)) =
          (scanFraction rest₁).map (fun f => (f.1, f.2.1, run₃ ++ more)) ∧
        scanExponent (run₃ ++ more) =
          (scanExponent rest₂).map (fun e => (e.1, e.2.1, more)) := by
    obtain ⟨hhalts₃, hnone, hscan₃⟩ := hmore₃ more hmore
    obtain ⟨hhalts₂, hscan₂⟩ := hmore₂ _ hhalts₃ hnone
    exact ⟨hmore₁ _ hhalts₂, hscan₂, hscan₃⟩
  -- what the number is depends on the three parts alone
  obtain ⟨hnumeric, rfl, hnumber⟩ : isNumeric kind = true ∧ rest = rest₃ ∧
      ∀ more, Detached more → ∀ q, ∃ q',
        scanNumber q (run₁ ++ (run₂ ++ (run₃ ++ more))) = .ok (kind, ⟨q', more⟩) := by
    rcases hfraction with ⟨hfraction, rfl, rfl⟩ | ⟨decimals, taken₂, hfraction⟩ <;>
      rcases hexponent with ⟨hexponent, rfl, rfl⟩ | ⟨exponent, taken₃, hexponent⟩ <;>
      simp only [scanNumber, hwhole, hfraction, hexponent] at h <;>
      obtain ⟨kind', hkind, h⟩ := bind_eq_ok_iff.mp h <;>
      cases h
    all_goals
      obtain ⟨hnumeric, hkind⟩ :=
        by first | exact integerLiteral_local hkind | exact numberLiteral_local hkind
      refine ⟨hnumeric, rfl, fun more hmore q => ?_⟩
      simp only [hfraction, hexponent, Option.map_none, Option.map_some, List.nil_append] at hscan
      obtain ⟨hscan₁, hscan₂, hscan₃⟩ := hscan more hmore
      simp only [List.nil_append, scanNumber, hscan₁, hscan₂, hscan₃]
      exact ⟨_, bind_eq_ok_iff.mpr ⟨kind, hkind q, rfl⟩⟩
  refine ⟨hnumeric, run₁ ++ run₂ ++ run₃, (hpart₁.append hpart₂).append hpart₃, ?_, ?_⟩
  · rw [List.append_assoc]
    exact digitAhead_append_of (hahead₁ hcs) _
  · intro more hmore q
    rw [List.append_assoc, List.append_assoc]
    exact hnumber more hmore q

/-! ### Strings -/

/-- A character that is no hexadecimal digit and no sign writes no code point. -/
theorem codePoint?_of_mem {c : Char} (hc : Text.hexValue? c = none) (hsign : c ≠ '+')
    {digits : List Char} (h : c ∈ digits) : codePoint? digits = none := by
  have hfold (ds : List Char) : ds.foldl (fun n c => n.bind fun n =>
      (Text.hexValue? c).map (16 * n + ·)) none = none := by
    induction ds with
    | nil => rfl
    | cons d ds ih => exact ih
  have hread {ds : List Char} (hmem : c ∈ ds) (start : Option Nat) :
      ds.foldl (fun n c => n.bind fun n => (Text.hexValue? c).map (16 * n + ·)) start = none := by
    obtain ⟨front, back, rfl⟩ := List.append_of_mem hmem
    have hstep (n : Option Nat) : (n.bind fun n => (Text.hexValue? c).map (16 * n + ·)) = none := by
      cases n <;> simp [hc]
    rw [List.foldl_append, List.foldl_cons, hstep, hfold]
  unfold codePoint? readHex?
  split
  · rename_i rest
    have hrest : c ∈ rest := (List.mem_cons.mp h).resolve_left hsign
    simp [hread hrest]
  · simp [hread h]

/-- What has been read of a string so far, of its text and of the item before it, holds the
character. -/
def Holds (c : Char) (decoded : List Char) : StringMode → Prop
  | .code digits => c ∈ decoded ∨ c ∈ digits
  | _ => c ∈ decoded

/-- A character that was read once, and writes no code point, is in the text of the string. -/
theorem mem_of_scanString {c : Char} (hc : Text.hexValue? c = none) (hsign : c ≠ '+')
    {start p : Position} {mode : StringMode} {decoded cs : List Char} {text : String}
    {after : Cursor} (hholds : Holds c decoded mode)
    (h : scanString start mode p decoded cs = .ok (.string text, after)) : c ∈ text.toList := by
  fun_induction scanString start mode p decoded cs with
  | case5 p decoded rest =>
    cases h
    simpa [Holds] using hholds
  | case6 p decoded rest _ ih => exact ih hholds h
  | case7 p decoded d rest _ _ ih => exact ih (List.mem_cons_of_mem _ hholds) h
  | case8 p decoded rest ih => exact ih hholds h
  | case9 p decoded d rest _ e _ ih => exact ih (List.mem_cons_of_mem _ hholds) h
  | case11 p decoded rest ih => exact ih (.inl hholds) h
  | case13 digits p decoded rest d hcode ih =>
    refine ih (List.mem_cons_of_mem _ (hholds.resolve_right fun hmem => ?_)) h
    rw [codePoint?_of_mem hc hsign (List.mem_reverse.mpr hmem)] at hcode
    cases hcode
  | case15 digits p decoded d rest _ ih =>
    exact ih (hholds.imp_right (List.mem_cons_of_mem _)) h
  | _ => cases h

/-! ### Characters that nothing takes in -/

/-- A character that is no white space, begins no comment and ends no symbol. -/
structure Inert (c : Char) : Prop where
  line : c ≠ '\n'
  blank : Text.isBlank c = false
  slash : c ≠ '/'
  symbol (d : Char) : doubleSymbol? d c = none

theorem Inert.of_ne {c : Char} (hsolid : c ≠ '\n' ∧ Text.isBlank c = false ∧ c ≠ '/')
    (h : c ≠ '=' ∧ c ≠ '&' ∧ c ≠ '|') : Inert c := by
  refine ⟨hsolid.1, hsolid.2.1, hsolid.2.2, fun d => ?_⟩
  obtain ⟨hequal, hand, hor⟩ := h
  unfold doubleSymbol?
  split <;> simp_all

theorem Inert.solid {c : Char} (h : Inert c) (rest : List Char) : Solid (c :: rest) :=
  ⟨c, rest, rfl, h.line, h.blank, h.slash⟩

end Lexer

/-! ### The characters of words -/

/-- Ranges that do not meet have no character in common. -/
theorem Text.inRanges_of_disjoint {ranges ranges' : List (Nat × Nat)} {c : Char}
    (hdisjoint : ∀ range ∈ ranges, ∀ range' ∈ ranges',
      range.2 < range'.1 ∨ range'.2 < range.1)
    (h : Text.inRanges ranges' c = true) : Text.inRanges ranges c = false := by
  obtain ⟨range', hmem', hin'⟩ := List.any_eq_true.mp h
  by_contra hnot
  rw [Bool.not_eq_false] at hnot
  obtain ⟨range, hmem, hin⟩ := List.any_eq_true.mp hnot
  simp only [Bool.and_eq_true, decide_eq_true_eq] at hin hin'
  have := hdisjoint range hmem range' hmem'
  omega

/-- No character of a word is white space. -/
theorem Text.isBlank_of_continuesWord {c : Char} (h : Lexer.continuesWord c = true) :
    Text.isBlank c = false := by
  have hletters : ∀ blank ∈ Text.blankRanges, ∀ letter ∈ Text.letterRanges,
      blank.2 < letter.1 ∨ letter.2 < blank.1 := by
    decide +kernel
  have hnumerals : ∀ blank ∈ Text.blankRanges, ∀ numeral ∈ Text.numeralRanges,
      blank.2 < numeral.1 ∨ numeral.2 < blank.1 := by
    decide +kernel
  simp only [Lexer.continuesWord, Bool.or_eq_true, decide_eq_true_eq] at h
  by_cases hascii : c.toNat < 128
  · simp only [Text.isLetter, Text.isNumeral, if_pos hascii] at h
    have hrange : 48 ≤ c.toNat ∧ c.toNat ≤ 122 := by
      rcases h with (rfl | hletter) | hdigit
      · decide
      · rw [Lexer.isAsciiLetter_iff] at hletter
        omega
      · rw [Lexer.isDigit_iff] at hdigit
        omega
    simp [Text.isBlank, Text.inRanges, Text.blankRanges]
    omega
  · simp only [Text.isLetter, Text.isNumeral, if_neg hascii] at h
    rcases h with (rfl | hletter) | hnumeral
    · exact absurd (by decide) hascii
    · exact Text.inRanges_of_disjoint hletters hletter
    · exact Text.inRanges_of_disjoint hnumerals hnumeral

theorem Lexer.solid_of_continuesWord {c : Char} (h : Lexer.continuesWord c = true)
    (rest : List Char) : Lexer.Solid (c :: rest) := by
  refine ⟨c, rest, rfl, ?_, Text.isBlank_of_continuesWord h, ?_⟩
  all_goals
    rintro rfl
    exact absurd h (by decide)

/-! ### The characters of a rendered value -/

namespace Number.Layout

/-- The literal of a double is a numeral behind a sign, or a name if the double is not finite. -/
theorem literal_chars (x : Double) :
    (∃ (negative : Bool) (n : Numeral), n.WellFormed ∧
      literal.chars x = (if negative then ['-'] else []) ++ n.chars false) ∨
    literal.chars x ∈ [['N', 'a', 'N'], ['-', 'i', 'n', 'f'], ['i', 'n', 'f']] := by
  unfold chars
  rcases he : x.exact? with _ | e
  · refine .inr ?_
    dsimp only
    split_ifs <;> simp
  · obtain ⟨n, hwell, hchars, -⟩ := writeMagnitude_numeral literal rfl he
    exact .inl ⟨e.negative, n, hwell, congrArg _ hchars.symm⟩

end Number.Layout

namespace Number.Numeral

theorem newline_notMem {n : Numeral} (h : n.WellFormed) : '\n' ∉ n.chars false := by
  have hdigits {digits : List Char} (hall : ∀ c ∈ digits, Text.isDigit c = true) :
      '\n' ∉ digits := fun hmem => absurd (hall _ hmem) (by decide)
  have hwhole := hdigits h.whole.2
  have hfraction := hdigits h.fraction
  have hexponent : '\n' ∉ n.exponentChars false := by
    unfold exponentChars
    rcases he : n.exponent with _ | ⟨negative, digits⟩
    · simp
    · have := hdigits (h.exponent _ he).2
      cases negative <;> simp [this]
  unfold chars
  split_ifs <;> simp [hwhole, hfraction, hexponent]

end Number.Numeral

theorem Text.newline_notMem_quote (text : String) : '\n' ∉ Text.quote text := by
  have hescape (c : Char) : '\n' ∉ Text.escapeChar c := by
    unfold Text.escapeChar
    split
    case h_7 hline _ _ _ =>
      split_ifs with hcontrol
      · have hlt : c.toNat < 160 := by
          simp only [Text.isControl, Bool.or_eq_true, Bool.and_eq_true,
            decide_eq_true_eq] at hcontrol
          omega
        have hcode : ∀ n < 160, '\n' ∉ Nat.toDigits 16 n := by decide +kernel
        simp [hcode c.toNat hlt]
      · simpa [eq_comm] using hline
    all_goals decide
  simp [Text.quote, hescape]

namespace Value

/-- What the source form of a value may begin with. -/
def opensText (c : Char) : Bool :=
  Text.isDigit c || c ∈ ['-', '"', '(', '[', '\x7b', 't', 'f', 'n', 'N', 'i']

theorem newline_notMem_items {items : List Value} (h : ∀ item ∈ items, '\n' ∉ item.renderChars) :
    '\n' ∉ renderItems items := by
  induction items with
  | nil => simp [renderItems]
  | cons item items ih =>
    have hitem := h item List.mem_cons_self
    have hrest := ih fun other hother => h other (List.mem_cons_of_mem _ hother)
    rcases items with _ | ⟨next, items⟩
    · exact hitem
    · simp [renderItems, hitem, hrest]

theorem newline_notMem_fields {fields : List (String × Value)}
    (h : ∀ field ∈ fields, '\n' ∉ field.2.renderChars) : '\n' ∉ renderFields fields := by
  induction fields with
  | nil => simp [renderFields]
  | cons field fields ih =>
    obtain ⟨key, value⟩ := field
    have hvalue := h (key, value) List.mem_cons_self
    have hkey := Text.newline_notMem_quote key
    have hrest := ih fun other hother => h other (List.mem_cons_of_mem _ hother)
    rcases fields with _ | ⟨next, fields⟩
    · simpa [renderFields, hkey] using hvalue
    · simpa [renderFields, hkey, hrest] using hvalue

/-- The source form of a value stands on one line. -/
theorem newline_notMem_render (v : Value) : '\n' ∉ v.renderChars := by
  have hdigits (n : Nat) : '\n' ∉ Nat.toDigits 10 n :=
    fun hmem => absurd (Number.isDigit_toDigits hmem) (by decide)
  induction v with
  | string text => exact Text.newline_notMem_quote text
  | number x =>
    rw [renderChars]
    rcases Number.Layout.literal_chars x with ⟨negative, n, hwell, hchars⟩ | hname
    · have := Number.Numeral.newline_notMem hwell
      cases negative <;> simp [hchars, this]
    · revert hname
      generalize Number.Layout.literal.chars x = cs
      revert cs
      simp
  | integer n =>
    rw [renderChars, integerChars]
    split_ifs
    · decide
    · unfold Number.integerChars
      split_ifs <;> simp [hdigits]
  | boolean flag => cases flag <;> decide
  | null => decide
  | array items ih => simp [renderChars, newline_notMem_items ih]
  | object fields ih => simp [renderChars, newline_notMem_fields ih]

theorem exists_cons_digits {digits : List Char} (hne : digits ≠ [])
    (hdigits : ∀ c ∈ digits, Text.isDigit c = true) (negative : Bool) (rest : List Char) :
    ∃ c cs, (if negative then ['-'] else []) ++ (digits ++ rest) = c :: cs ∧
      opensText c = true := by
  cases negative with
  | true => exact ⟨'-', digits ++ rest, rfl, by decide⟩
  | false =>
    obtain ⟨d, digits, rfl⟩ := List.exists_cons_of_ne_nil hne
    exact ⟨d, digits ++ rest, rfl, by simp [opensText, hdigits d List.mem_cons_self]⟩

/-- The source form of a value begins with one of few characters. -/
theorem exists_cons_render (v : Value) : ∃ c cs, v.renderChars = c :: cs ∧ opensText c = true := by
  cases v with
  | string text => exact ⟨'"', _, rfl, by decide⟩
  | number x =>
    rw [renderChars]
    rcases Number.Layout.literal_chars x with ⟨negative, n, hwell, hchars⟩ | hname
    · rw [hchars, Number.Numeral.chars]
      exact exists_cons_digits hwell.whole.1 hwell.whole.2 negative _
    · simp only [List.mem_cons, List.not_mem_nil, or_false] at hname
      rcases hname with hname | hname | hname <;> exact ⟨_, _, hname, by decide⟩
  | integer n =>
    rw [renderChars, integerChars]
    split_ifs
    · exact ⟨'(', "-9223372036854775807 - 1)".toList, by decide, by decide⟩
    · have hcons := exists_cons_digits (Nat.toDigits_ne_nil (n := n.toInt.natAbs) (b := 10))
        (fun c hc => Number.isDigit_toDigits hc) (n.toInt < 0) []
      simpa [Number.integerChars] using hcons
  | boolean flag => cases flag <;> exact ⟨_, _, rfl, by decide⟩
  | null => exact ⟨_, _, rfl, by decide⟩
  | array items => exact ⟨'[', _, rfl, by decide⟩
  | object fields => exact ⟨'\x7b', _, rfl, by decide⟩

theorem inert_of_opensText {c : Char} (h : opensText c = true) : Lexer.Inert c := by
  have hlisted : (['-', '"', '(', '[', '\x7b', 't', 'f', 'n', 'N', 'i'].all fun d =>
      (d ≠ '\n' ∧ Text.isBlank d = false ∧ d ≠ '/') ∧ d ≠ '=' ∧ d ≠ '&' ∧ d ≠ '|') = true := by
    decide
  simp only [List.all_eq_true, decide_eq_true_eq] at hlisted
  rw [opensText, Bool.or_eq_true, decide_eq_true_eq] at h
  rcases h with hdigit | hmem
  · obtain ⟨_, _, ⟨⟩, hline, hblank, hslash⟩ := Lexer.solid_of_isDigit hdigit []
    refine .of_ne ⟨hline, hblank, hslash⟩ ⟨?_, ?_, ?_⟩ <;>
    · rintro rfl
      exact absurd hdigit (by decide)
  · exact .of_ne (hlisted c hmem).1 (hlisted c hmem).2

end Value

end Covenant
