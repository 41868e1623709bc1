import Covenant.Json.Decode
import Covenant.Json.Reader
import Covenant.Proofs.Decimals
import Mathlib.Data.List.DropRight

/-!
# Texts of documents read back

The text of a document is read as the document again, with whatever white space between its parts,
except for the parts that have no form in JSON: a number that is not finite and an unreadable part
are written as null. The integers must fit in 64 bits, signed or not, and the reader must be allowed
to open as many arrays and objects at a time as the document nests. As every character of a text is
read in at most two rounds, the allowance that the reader gives itself suffices.

## Main definitions

* `Json.written` : what the text of a document keeps.
* `Json.Fits` : every integer fits in 64 bits.
* `Json.Spacing`, `Json.spacedChars` : a text with white space between the parts of a document.
* `Json.Closed` : no character follows that a number could go on with.

## Main results

* `Json.readsBack` : a document in front of another text is read up to its end.
* `Json.parse?_compact`, `Json.parse?_pretty` : the texts of a document that is not nested too deep
  are read back.
* `Json.written_eq_of_compact_eq` : documents with the same compact text keep the same.
-/

namespace Covenant.Json

/-! ### Lists read item by item -/

section Lists

variable {α β : Type} {f : β → Option α}

/-- What is written item by item is read back if each item is. -/
theorem mapM_map {g : α → β} {l : List α} (h : ∀ a ∈ l, f (g a) = some a) :
    (l.map g).mapM f = some l := by
  induction l with
  | nil => rfl
  | cons a l ih =>
    have hrest := ih fun b hb => h b (List.mem_cons_of_mem _ hb)
    simp [h a List.mem_cons_self, hrest]

/-- What is read item by item comes from an item. -/
theorem exists_of_mem_mapM {l : List β} {l' : List α} (h : l.mapM f = some l') {a : α}
    (ha : a ∈ l') : ∃ b ∈ l, f b = some a := by
  induction l generalizing l' with
  | nil =>
    obtain rfl := Option.some.inj h
    cases ha
  | cons b l ih =>
    simp only [List.mapM_cons, bind, Option.bind_eq_some_iff] at h
    obtain ⟨first, hfirst, rest, hrest, hl⟩ := h
    obtain rfl := Option.some.inj hl
    rcases List.mem_cons.mp ha with rfl | ha
    · exact ⟨b, List.mem_cons_self, hfirst⟩
    · obtain ⟨c, hc, hread⟩ := ih hrest ha
      exact ⟨c, List.mem_cons_of_mem _ hc, hread⟩

end Lists

/-! ### Documents -/

/-- Induction on documents. Items and members give a hypothesis for each of them. -/
@[induction_eliminator]
theorem ind {motive : Json → Prop}
    (null : motive null)
    (boolean : ∀ flag, motive (boolean flag))
    (integer : ∀ n, motive (integer n))
    (number : ∀ x, motive (number x))
    (string : ∀ text, motive (string text))
    (array : ∀ items, (∀ item ∈ items, motive item) → motive (array items))
    (object : ∀ members, (∀ member ∈ members, motive member.2) → motive (object members))
    (unreadable : motive unreadable) (j : Json) : motive j :=
  @Json.rec motive (fun items => ∀ item ∈ items, motive item)
    (fun members => ∀ member ∈ members, motive member.2) (fun member => motive member.2)
    null boolean integer number string array object unreadable
    (fun _ h => nomatch h)
    (fun _ _ ihHead ihTail _ h => by
      rcases List.mem_cons.mp h with rfl | h
      · exact ihHead
      · exact ihTail _ h)
    (fun _ h => nomatch h)
    (fun _ _ ihHead ihTail _ h => by
      rcases List.mem_cons.mp h with rfl | h
      · exact ihHead
      · exact ihTail _ h)
    (fun _ _ ih => ih) j

mutual

/-- What the text of a document keeps: null stands for what has no form. -/
def written : Json → Json
  | null | unreadable => null
  | boolean flag => boolean flag
  | integer n => integer n
  | number x => if x.isFinite then number x else null
  | string text => string text
  | array items => array (writtenItems items)
  | object members => object (writtenMembers members)

/-- What a text keeps of items. -/
def writtenItems : List Json → List Json
  | [] => []
  | item :: rest => item.written :: writtenItems rest

/-- What a text keeps of members. -/
def writtenMembers : List (String × Json) → List (String × Json)
  | [] => []
  | (key, value) :: rest => (key, value.written) :: writtenMembers rest

end

mutual

/-- Every integer fits in 64 bits, signed or not. -/
def Fits : Json → Prop
  | integer n => -2 ^ 63 ≤ n ∧ n < 2 ^ 64
  | array items => FitsItems items
  | object members => FitsMembers members
  | _ => True

/-- Every integer in items fits in 64 bits. -/
def FitsItems : List Json → Prop
  | [] => True
  | item :: rest => item.Fits ∧ FitsItems rest

/-- Every integer in members fits in 64 bits. -/
def FitsMembers : List (String × Json) → Prop
  | [] => True
  | (_, value) :: rest => value.Fits ∧ FitsMembers rest

end

/-! ### White space between parts -/

/-- All characters are white space. -/
def Blank (cs : List Char) : Prop :=
  ∀ c ∈ cs, isSpace c = true

/-- The white space between the parts of a text. -/
structure Spacing where
  /-- What stands in front of an item, a member or a closing bracket, by their level. -/
  gap : Nat → List Char
  /-- What stands behind a colon. -/
  colon : List Char
  blank_gap (level : Nat) : Blank (gap level)
  blank_colon : Blank colon

/-- No white space. -/
def Spacing.compact : Spacing where
  gap _ := []
  colon := []
  blank_gap _ := List.forall_mem_nil _
  blank_colon := List.forall_mem_nil _

/-- A line of its own for each part. -/
def Spacing.pretty : Spacing where
  gap := newline
  colon := [' ']
  blank_gap level := by
    refine List.forall_mem_cons.mpr ⟨by decide, fun c hc => ?_⟩
    rw [List.eq_of_mem_replicate hc]
    decide
  blank_colon := List.forall_mem_singleton.mpr (by decide)

section Spaced

variable (s : Spacing)

mutual

/-- The characters of a document with white space between its parts. -/
def spacedChars (level : Nat) : Json → List Char
  | array [] => ['[', ']']
  | array items => '[' :: (spacedItems (level + 1) items ++ (s.gap level ++ [']']))
  | object [] => ['{', '}']
  | object members => '{' :: (spacedMembers (level + 1) members ++ (s.gap level ++ ['}']))
  | j => j.compactChars

/-- The characters of items with white space in front of each. -/
def spacedItems (level : Nat) : List Json → List Char
  | [] => []
  | [item] => s.gap level ++ spacedChars level item
  | item :: rest => s.gap level ++ (spacedChars level item ++ ',' :: spacedItems level rest)

/-- The characters of members with white space in front of each and behind the colons. -/
def spacedMembers (level : Nat) : List (String × Json) → List Char
  | [] => []
  | [(key, value)] => s.gap level ++ (quote key ++ ':' :: (s.colon ++ spacedChars level value))
  | (key, value) :: rest =>
    s.gap level ++ (quote key ++ ':' :: (s.colon ++ (spacedChars level value ++
      ',' :: spacedMembers level rest)))

end

end Spaced

theorem compactItems_eq {items : List Json} {level : Nat}
    (h : ∀ item ∈ items, item.compactChars = spacedChars .compact level item) :
    compactItems items = spacedItems .compact level items := by
  induction items with
  | nil => rfl
  | cons item items ih =>
    obtain ⟨hitem, hrest⟩ := List.forall_mem_cons.mp h
    cases items with
    | nil => exact hitem
    | cons second items =>
      rw [compactItems, hitem, ih hrest]
      · rfl
      · exact List.cons_ne_nil _ _

theorem compactMembers_eq {members : List (String × Json)} {level : Nat}
    (h : ∀ member ∈ members, member.2.compactChars = spacedChars .compact level member.2) :
    compactMembers members = spacedMembers .compact level members := by
  induction members with
  | nil => rfl
  | cons member members ih =>
    obtain ⟨key, value⟩ := member
    obtain ⟨hvalue, hrest⟩ := List.forall_mem_cons.mp h
    cases members with
    | nil =>
      rw [compactMembers, hvalue]
      rfl
    | cons second members =>
      rw [compactMembers, hvalue, ih hrest]
      · rfl
      · exact List.cons_ne_nil _ _

theorem compactChars_eq (j : Json) (level : Nat) :
    j.compactChars = spacedChars .compact level j := by
  induction j generalizing level with
  | array items ih =>
    cases items with
    | nil => rfl
    | cons item items =>
      rw [compactChars, compactItems_eq fun item hitem => ih item hitem (level + 1)]
      rfl
  | object members ih =>
    cases members with
    | nil => rfl
    | cons member members =>
      rw [compactChars, compactMembers_eq fun member hmember => ih member hmember (level + 1)]
      rfl
  | _ => rfl

theorem prettyItems_eq {items : List Json} {level : Nat}
    (h : ∀ item ∈ items, prettyChars level item = spacedChars .pretty level item) :
    prettyItems level items = spacedItems .pretty level items := by
  induction items with
  | nil => rfl
  | cons item items ih =>
    obtain ⟨hitem, hrest⟩ := List.forall_mem_cons.mp h
    cases items with
    | nil => rw [prettyItems, hitem]; rfl
    | cons second items =>
      rw [prettyItems, hitem, ih hrest, List.append_assoc]
      · rfl
      · exact List.cons_ne_nil _ _

theorem prettyMembers_eq {members : List (String × Json)} {level : Nat}
    (h : ∀ member ∈ members, prettyChars level member.2 = spacedChars .pretty level member.2) :
    prettyMembers level members = spacedMembers .pretty level members := by
  induction members with
  | nil => rfl
  | cons member members ih =>
    obtain ⟨key, value⟩ := member
    obtain ⟨hvalue, hrest⟩ := List.forall_mem_cons.mp h
    cases members with
    | nil =>
      rw [prettyMembers, hvalue, List.append_assoc]
      rfl
    | cons second members =>
      rw [prettyMembers, hvalue, ih hrest, List.append_assoc]
      · rfl
      · exact List.cons_ne_nil _ _

theorem prettyChars_eq (j : Json) (level : Nat) :
    prettyChars level j = spacedChars .pretty level j := by
  induction j generalizing level with
  | array items ih =>
    cases items with
    | nil => rfl
    | cons item items =>
      rw [prettyChars, prettyItems_eq fun item hitem => ih item hitem (level + 1),
        List.append_assoc]
      · rfl
      · exact List.cons_ne_nil _ _
  | object members ih =>
    cases members with
    | nil => rfl
    | cons member members =>
      rw [prettyChars, prettyMembers_eq fun member hmember => ih member hmember (level + 1),
        List.append_assoc]
      · rfl
      · exact List.cons_ne_nil _ _
  | _ => rfl

/-! ### Numbers -/

/-- No character follows that a number could go on with. -/
def Closed (rest : List Char) : Prop :=
  ∀ c ∈ rest.head?, Text.isDigit c = false ∧ c ≠ '.' ∧ c ≠ 'e' ∧ c ≠ 'E'

section Numbers

variable {digits rest : List Char}

theorem spanDigits_append (hdigits : ∀ c ∈ digits, Text.isDigit c = true)
    (hrest : ∀ c ∈ rest.head?, Text.isDigit c = false) :
    Number.spanDigits (digits ++ rest) = (digits, rest) := by
  have hstop : rest.takeWhile Text.isDigit = [] ∧ rest.dropWhile Text.isDigit = rest := by
    rcases rest with _ | ⟨c, rest⟩
    · exact ⟨rfl, rfl⟩
    · simp [hrest c rfl]
  rw [Number.spanDigits, List.span_eq_takeWhile_dropWhile, List.takeWhile_append_of_pos hdigits,
    List.dropWhile_append_of_pos hdigits, hstop.1, hstop.2, List.append_nil]

theorem readDigits?_append (hne : digits ≠ []) (hdigits : ∀ c ∈ digits, Text.isDigit c = true)
    (hrest : ∀ c ∈ rest.head?, Text.isDigit c = false) :
    readDigits? (digits ++ rest) = some (digits, rest) := by
  simp [readDigits?, spanDigits_append hdigits hrest, hne]

/-- Digits that begin with a zero only if it stands alone are read as a whole part. -/
theorem readWhole?_append (hne : digits ≠ []) (hdigits : ∀ c ∈ digits, Text.isDigit c = true)
    (hlead : digits = ['0'] ∨ digits.head? ≠ some '0')
    (hrest : ∀ c ∈ rest.head?, Text.isDigit c = false) :
    readWhole? (digits ++ rest) = some (digits, rest) := by
  rcases hlead with rfl | hlead
  · have hany : rest.head?.any Text.isDigit = false := by
      rcases rest with _ | ⟨c, rest⟩
      · rfl
      · exact hrest c rfl
    simp [readWhole?, hany]
  · have hspan := readDigits?_append hne hdigits hrest
    obtain ⟨d, digits, rfl⟩ := List.exists_cons_of_ne_nil hne
    have hd : d ≠ '0' := fun h => hlead (congrArg some h)
    unfold readWhole?
    split
    · rename_i heq
      exact absurd (List.cons.inj heq).1 hd
    · exact hspan

theorem Closed.readFraction? (h : Closed rest) : readFraction? rest = some (none, rest) := by
  unfold Json.readFraction?
  split
  · exact absurd rfl (h '.' rfl).2.1
  · rfl

theorem Closed.readExponent? (h : Closed rest) : readExponent? rest = some (none, rest) := by
  rcases rest with _ | ⟨c, rest⟩
  · rfl
  · obtain ⟨-, -, hlower, hupper⟩ := h c rfl
    simp [Json.readExponent?, hlower, hupper]

/-- Digits without point and exponent are read as a whole number. -/
theorem readNumber?_whole (negative : Bool) (hne : digits ≠ [])
    (hdigits : ∀ c ∈ digits, Text.isDigit c = true)
    (hlead : digits = ['0'] ∨ digits.head? ≠ some '0') (hrest : Closed rest) :
    readNumber? negative (digits ++ rest) = some (ofWhole negative digits, rest) := by
  have hwhole := readWhole?_append hne hdigits hlead fun c hc => (hrest c hc).1
  simp [readNumber?, hwhole, hrest.readFraction?, hrest.readExponent?]

variable {n : Number.Numeral}

theorem head_exponentChars (n : Number.Numeral) (plusSign : Bool) (hrest : Closed rest) :
    ∀ c ∈ (n.exponentChars plusSign ++ rest).head?, Text.isDigit c = false ∧ c ≠ '.' := by
  unfold Number.Numeral.exponentChars
  rcases n.exponent with _ | ⟨negative, digits⟩
  · exact fun c hc => ⟨(hrest c hc).1, (hrest c hc).2.1⟩
  · rintro _ ⟨⟩
    decide

/-- The exponent of a numeral is read whole. -/
theorem readExponent?_numeral (plusSign : Bool) (h : n.WellFormed) (hrest : Closed rest) :
    readExponent? (n.exponentChars plusSign ++ rest) =
      some (n.exponent.map fun e => Number.exponentOf e.1 e.2, rest) := by
  unfold Number.Numeral.exponentChars
  rcases hexponent : n.exponent with _ | ⟨negative, digits⟩
  · exact hrest.readExponent?
  obtain ⟨hne, hdigits⟩ : digits ≠ [] ∧ ∀ c ∈ digits, Text.isDigit c = true :=
    h.exponent _ hexponent
  have hpower : Number.exponentMagnitude digits = Number.ofDigits digits :=
    Number.exponentMagnitude_eq (h.moderate _ hexponent)
  have hread := readDigits?_append hne hdigits fun c hc => (hrest c hc).1
  have hsign : Number.splitSign
      ((if negative then ['-'] else if plusSign then ['+'] else []) ++ (digits ++ rest)) =
        (negative, digits ++ rest) := by
    cases negative with
    | true => rfl
    | false =>
      cases plusSign with
      | true => rfl
      | false =>
        -- without a sign, the first digit is looked at to see that it is none
        obtain ⟨d, digits, rfl⟩ := List.exists_cons_of_ne_nil hne
        obtain ⟨hplus, hminus⟩ := Number.ne_sign_of_isDigit (hdigits d List.mem_cons_self)
        simp [Number.splitSign, hplus, hminus]
  simp [readExponent?, hsign, hread, Number.exponentOf, hpower]

/-- The fraction of a numeral is read whole. -/
theorem readFraction?_numeral (plusSign : Bool) (h : n.WellFormed) (hrest : Closed rest) :
    readFraction? ((if n.fraction.isEmpty then [] else '.' :: n.fraction) ++
        (n.exponentChars plusSign ++ rest)) =
      some (if n.fraction.isEmpty then none else some n.fraction,
        n.exponentChars plusSign ++ rest) := by
  have hhead := head_exponentChars n plusSign hrest
  by_cases hempty : n.fraction.isEmpty = true
  · simp only [hempty, if_true, List.nil_append]
    unfold readFraction?
    split
    · rename_i heq
      rw [heq] at hhead
      exact absurd rfl (hhead '.' rfl).2
    · rfl
  · have hne : n.fraction ≠ [] := fun hnil => hempty (List.isEmpty_iff.mpr hnil)
    have hread := readDigits?_append hne h.fraction fun c hc => (hhead c hc).1
    simp [hempty, readFraction?, hread]

/-- A numeral is read as the double nearest to its number. -/
theorem readNumber?_numeral (negative plusSign : Bool) (h : n.WellFormed) (hrest : Closed rest) :
    readNumber? negative (n.chars plusSign ++ rest) =
      some (ofMagnitude negative n.decimal.toDouble, rest) := by
  have hhead : ∀ c ∈ ((if n.fraction.isEmpty then [] else '.' :: n.fraction) ++
      (n.exponentChars plusSign ++ rest)).head?, Text.isDigit c = false := by
    split_ifs
    · exact fun c hc => (head_exponentChars n plusSign hrest c hc).1
    · rintro _ ⟨⟩
      decide
  have hwhole := readWhole?_append h.whole.1 h.whole.2 h.lead hhead
  have hfraction := readFraction?_numeral plusSign h hrest
  have hexponent := readExponent?_numeral plusSign h hrest
  have hmarked : ((if n.fraction.isEmpty then none else some n.fraction).isNone &&
      (n.exponent.map fun e => Number.exponentOf e.1 e.2).isNone) = false := by
    rcases h.marked with hfraction | hexponent
    · simp [hfraction]
    · obtain ⟨e, he⟩ := Option.isSome_iff_exists.mp hexponent
      simp [he]
  have hdigits : (if n.fraction.isEmpty then none else some n.fraction).getD [] = n.fraction := by
    split_ifs with hempty
    · exact (List.isEmpty_iff.mp hempty).symm
    · rfl
  have hpower : (n.exponent.map fun e => Number.exponentOf e.1 e.2).getD 0 = n.power := by
    unfold Number.Numeral.power
    rcases n.exponent with _ | ⟨negative, digits⟩ <;> rfl
  rw [Number.Numeral.chars, List.append_assoc, List.append_assoc]
  simp only [readNumber?, hwhole, hfraction, hexponent, hmarked, hdigits, hpower, bind, pure,
    Option.bind_some, Bool.false_eq_true, if_false]
  rfl

/-- A text that begins with a digit is read as a number. -/
theorem readScalar?_digit (k : Nat) {d : Char} (hd : Text.isDigit d = true) (rest : List Char) :
    readScalar? k (d :: rest) = readNumber? false (d :: rest) := by
  have hne {c : Char} (hc : Text.isDigit c = false) : d ≠ c := by
    rintro rfl
    exact Bool.false_ne_true (hc.symm.trans hd)
  unfold readScalar?
  split
  case h_6 => rfl
  all_goals
    rename_i heq
    exact absurd (List.cons.inj heq).1 (hne (by decide))

/-- The digits of an integer that fits in 64 bits, signed or not, are read as that. -/
theorem readScalar?_integer (k : Nat) {n : Int} (hlow : -2 ^ 63 ≤ n) (hhigh : n < 2 ^ 64)
    (hrest : Closed rest) :
    readScalar? k (Number.integerChars n ++ rest) = some (.integer n, rest) := by
  have hdigits (c : Char) (hc : c ∈ Nat.toDigits 10 n.natAbs) := Number.isDigit_toDigits hc
  have hlead : Nat.toDigits 10 n.natAbs = ['0'] ∨ (Nat.toDigits 10 n.natAbs).head? ≠ some '0' := by
    rcases Nat.eq_zero_or_pos n.natAbs with hzero | hpos
    · exact .inl (by rw [hzero]; rfl)
    · exact .inr (Number.head?_toDigits hpos)
  have hread (negative : Bool) :=
    readNumber?_whole negative Nat.toDigits_ne_nil hdigits hlead hrest
  unfold Number.integerChars
  by_cases hneg : n < 0
  · have hinteger : ofWhole true (Nat.toDigits 10 n.natAbs) = .integer n := by
      have hrange : 0 < n.natAbs ∧ n.natAbs ≤ Nat.pow 2 63 := by
        simp only [Nat.pow_eq]
        omega
      simp only [ofWhole, Number.ofDigits_toDigits, hrange, and_self, decide_true, Bool.and_self,
        if_true]
      congr 1
      omega
    rw [if_pos hneg, ← hinteger]
    exact hread true
  · have hinteger : ofWhole false (Nat.toDigits 10 n.natAbs) = .integer n := by
      have hrange : n.natAbs < Nat.pow 2 64 := by
        simp only [Nat.pow_eq]
        omega
      simp only [ofWhole, Number.ofDigits_toDigits, hrange, decide_true, Bool.not_false,
        Bool.and_self, Bool.false_and, Bool.false_eq_true, if_false, if_true]
      congr 1
      omega
    obtain ⟨d, digits, heq⟩ := List.exists_cons_of_ne_nil (Nat.toDigits_ne_nil (n := n.natAbs))
    rw [if_neg hneg, List.nil_append, ← hinteger, ← hread false, heq]
    exact readScalar?_digit k (hdigits d (by simp [heq])) _

/-- The text of a finite double is read as that, bit for bit. -/
theorem readScalar?_number (k : Nat) {x : Double} (hfinite : x.isFinite = true)
    (hrest : Closed rest) :
    readScalar? k (numberChars x ++ rest) = some (.number x, rest) := by
  obtain ⟨e, he⟩ : ∃ e, x.exact? = some e := by
    unfold Double.exact?
    simp only [hfinite, Bool.not_true, Bool.false_eq_true, if_false]
    split_ifs
    · exact ⟨_, rfl⟩
    · exact ⟨_, rfl⟩
  obtain ⟨hnegative, hlt, -⟩ := Double.exact_spec he
  obtain ⟨n, hwell, hchars, hdouble⟩ := Number.Layout.writeMagnitude_numeral .data rfl he
  have hmagnitude : (Double.ofParts false x.magnitudeBits).isFinite = true :=
    Double.isFinite_ofParts _ hlt
  have hread (negative : Bool) := readNumber?_numeral negative true hwell hrest
  rw [hdouble] at hread
  have hwrite : numberChars x ++ rest =
      (if x.negative then ['-'] else []) ++ (n.chars true ++ rest) := by
    simp only [numberChars, if_pos hfinite, Number.Layout.chars, he, hnegative, ← hchars,
      List.append_assoc]
    rfl
  rw [hwrite]
  cases hsign : x.negative with
  | true =>
    have hx : ofMagnitude true (Double.ofParts false x.magnitudeBits) = .number x := by
      rw [ofMagnitude, if_pos hmagnitude, if_pos rfl, Double.neg_ofParts_magnitude hsign]
    rw [← hx]
    exact hread true
  | false =>
    have hx : ofMagnitude false (Double.ofParts false x.magnitudeBits) = .number x := by
      rw [ofMagnitude, if_pos hmagnitude, if_neg Bool.false_ne_true, ← hsign, Double.ofParts_self]
    rw [← hx, ← hread false]
    obtain ⟨d, whole, heq⟩ := List.exists_cons_of_ne_nil hwell.whole.1
    have hd : Text.isDigit d = true := hwell.whole.2 d (by simp [heq])
    rw [Number.Numeral.chars, heq]
    exact readScalar?_digit k hd _

end Numbers

/-! ### Strings -/

/-- A character of a string is read in one round. -/
theorem readString?_escapeChar (n : Nat) (readable : Bool) (decoded : List Char) (c : Char)
    (rest : List Char) :
    readString? (n + 1) readable decoded (escapeChar c ++ rest) =
      readString? n readable (c :: decoded) rest := by
  unfold escapeChar
  split
  case h_8 hquote hbackslash _ _ _ _ _ =>
    split_ifs with hcontrol
    · have hhigh : ∀ n < 32, Text.hexValue? (Nat.digitChar (n / 16)) = some (n / 16) := by decide
      have hlow : ∀ n < 32, Text.hexValue? (Nat.digitChar (n % 16)) = some (n % 16) := by decide
      have hread : readEscape? ('u' :: '0' :: '0' :: Nat.digitChar (c.toNat / 16) ::
          Nat.digitChar (c.toNat % 16) :: rest) = some (some c, rest) := by
        have hcode : ((0 * 16 + 0) * 16 + c.toNat / 16) * 16 + c.toNat % 16 = c.toNat := by omega
        have hzero : Text.hexValue? '0' = some 0 := by decide
        simp only [readEscape?, readUnits?, readHex4?, hzero, hhigh _ hcontrol, hlow _ hcontrol,
          bind, pure, Option.bind_some, hcode]
        rw [if_neg (by omega), if_neg (by omega), Char.ofNat_toNat]
      simp [readString?, hread]
    · rw [List.singleton_append, readString?, if_neg hquote, if_neg hbackslash, if_neg hcontrol]
  all_goals simp [readString?, readEscape?]

/-- A string in quotes is read up to its closing quote. -/
theorem readString?_quoted (text decoded rest : List Char) {n : Nat} (h : text.length < n) :
    readString? n true decoded (text.flatMap escapeChar ++ '"' :: rest) =
      some (some (String.ofList (decoded.reverse ++ text)), rest) := by
  induction text generalizing n decoded with
  | nil =>
    obtain ⟨n, rfl⟩ := Nat.exists_eq_add_of_lt h
    simp [readString?]
  | cons c text ih =>
    obtain ⟨n, rfl⟩ : ∃ m, n = m + 1 := ⟨n - 1, by omega⟩
    rw [List.flatMap_cons, List.append_assoc, readString?_escapeChar,
      ih (c :: decoded) (by simpa using h), List.reverse_cons, List.append_assoc]
    rfl

theorem length_le_flatMap_escapeChar (text : List Char) :
    text.length ≤ (text.flatMap escapeChar).length := by
  have hpos (c : Char) : 1 ≤ (escapeChar c).length := by
    unfold escapeChar
    split
    case h_8 => split_ifs <;> simp
    all_goals simp
  induction text with
  | nil => exact Nat.le_refl _
  | cons c text ih =>
    have := hpos c
    simp only [List.length_cons, List.flatMap_cons, List.length_append]
    omega

theorem readString?_quote (text : String) (rest : List Char) {n : Nat}
    (h : (quote text).length ≤ n + 1) :
    readString? n true [] (text.toList.flatMap escapeChar ++ '"' :: rest) =
      some (some text, rest) := by
  have hle := length_le_flatMap_escapeChar text.toList
  simp only [quote, List.length_cons, List.length_append, List.length_nil] at h
  rw [readString?_quoted _ _ _ (by omega), List.reverse_nil, List.nil_append, String.ofList_toList]

theorem quote_append (text : String) (rest : List Char) :
    quote text ++ rest = '"' :: (text.toList.flatMap escapeChar ++ '"' :: rest) := by
  simp [quote]

/-! ### The parts of a text -/

theorem skipSpace_cons {c : Char} (h : isSpace c = false) (cs : List Char) :
    skipSpace (c :: cs) = c :: cs := by
  simp [skipSpace, h]

theorem skipSpace_skipSpace (cs : List Char) : skipSpace (skipSpace cs) = skipSpace cs :=
  List.dropWhile_idempotent _ _

theorem Blank.skipSpace_append {gap : List Char} (h : Blank gap) (cs : List Char) :
    skipSpace (gap ++ cs) = skipSpace cs :=
  List.dropWhile_append_of_pos h

theorem readValue?_skipSpace (n depth : Nat) (cs : List Char) :
    readValue? n depth (skipSpace cs) = readValue? n depth cs := by
  cases n with
  | zero => rfl
  | succ n => rw [readValue?, readValue?, skipSpace_skipSpace]

theorem Blank.readValue?_append {gap : List Char} (h : Blank gap) (n depth : Nat) (cs : List Char) :
    readValue? n depth (gap ++ cs) = readValue? n depth cs := by
  rw [← readValue?_skipSpace, h.skipSpace_append, readValue?_skipSpace]

theorem readItems?_skipSpace (n depth : Nat) (items : List Json) (cs : List Char) :
    readItems? n depth items (skipSpace cs) = readItems? n depth items cs := by
  cases n with
  | zero => rfl
  | succ n => rw [readItems?, readItems?, readValue?_skipSpace]

theorem readMembers?_skipSpace (n depth : Nat) (members : List (Option String × Json))
    (cs : List Char) :
    readMembers? n depth members (skipSpace cs) = readMembers? n depth members cs := by
  cases n with
  | zero => rfl
  | succ n => rw [readMembers?, readMembers?, skipSpace_skipSpace]

/-- White space and brackets begin no scalar. -/
theorem readScalar?_eq_none {c : Char} (h : c ∈ [' ', '\t', '\n', '\r', '[', ']', '{', '}'])
    (n : Nat) (rest : List Char) : readScalar? n (c :: rest) = none := by
  simp only [List.mem_cons, List.not_mem_nil, or_false] at h
  rcases h with rfl | rfl | rfl | rfl | rfl | rfl | rfl | rfl <;> rfl

theorem readValue?_of_readScalar? {n depth : Nat} {cs : List Char} {r : Json × List Char}
    (h : readScalar? (n + 1) cs = some r) : readValue? (n + 1) depth cs = some r := by
  rcases cs with _ | ⟨c, cs⟩
  · cases h
  have hne {d : Char} (hd : d ∈ [' ', '\t', '\n', '\r', '[', ']', '{', '}']) : c ≠ d := by
    rintro rfl
    rw [readScalar?_eq_none hd] at h
    cases h
  have hspace : isSpace c = false := by
    simp [isSpace, hne]
  rw [readValue?, skipSpace_cons hspace]
  split
  · rename_i heq
    exact absurd (List.cons.inj heq).1 (hne (by simp))
  · rename_i heq
    exact absurd (List.cons.inj heq).1 (hne (by simp))
  · exact h

theorem readValue?_array (n depth : Nat) (cs : List Char) :
    readValue? (n + 1) (depth + 1) ('[' :: cs) =
      match skipSpace cs with
      | ']' :: rest => some (.array [], rest)
      | rest => readItems? n depth [] rest := rfl

theorem readValue?_object (n depth : Nat) (cs : List Char) :
    readValue? (n + 1) (depth + 1) ('{' :: cs) =
      match skipSpace cs with
      | '}' :: rest => some (.object [], rest)
      | rest => readMembers? n depth [] rest := rfl

/-- Items behind a bracket are read as an array. -/
theorem readValue?_of_readItems? {n depth : Nat} {cs : List Char} {r : Json × List Char}
    (h : readItems? n depth [] cs = some r) :
    readValue? (n + 1) (depth + 1) ('[' :: cs) = some r := by
  rw [readValue?_array]
  rw [← readItems?_skipSpace] at h
  split
  · -- a closing bracket begins no item
    rename_i rest heq
    rw [heq] at h
    rcases n with _ | _ | n
    · cases h
    · cases h
    · have hnone : readValue? (n + 1) depth (']' :: rest) = none :=
        readScalar?_eq_none (c := ']') (by simp) (n + 1) rest
      rw [readItems?, hnone] at h
      cases h
  · exact h

/-- Members behind a brace are read as an object. -/
theorem readValue?_of_readMembers? {n depth : Nat} {cs : List Char} {r : Json × List Char}
    (h : readMembers? n depth [] cs = some r) :
    readValue? (n + 1) (depth + 1) ('{' :: cs) = some r := by
  rw [readValue?_object]
  rw [← readMembers?_skipSpace] at h
  split
  · -- a closing brace begins no key
    rename_i rest heq
    rw [heq] at h
    cases n <;> cases h
  · exact h

section Parts

variable {n depth : Nat} {cs rest rest' : List Char} {item : Json}

theorem readItems?_comma (items : List Json)
    (h : readValue? n depth cs = some (item, ',' :: rest)) :
    readItems? (n + 1) depth items cs = readItems? n depth (item :: items) rest := by
  rw [readItems?, h]
  rfl

theorem readItems?_bracket (items : List Json)
    (h : readValue? n depth cs = some (item, rest')) (hrest : skipSpace rest' = ']' :: rest) :
    readItems? (n + 1) depth items cs = some (.array (item :: items).reverse, rest) := by
  rw [readItems?, h]
  dsimp only
  rw [hrest]
  rfl

theorem readMembers?_comma (members : List (Option String × Json)) {key : Option String}
    (hkey : readKey? (n + 1) (skipSpace cs) = some (key, rest))
    (h : readValue? n depth rest = some (item, ',' :: rest')) :
    readMembers? (n + 1) depth members cs =
      readMembers? n depth ((key, item) :: members) rest' := by
  rw [readMembers?, hkey]
  dsimp only
  rw [h]
  rfl

theorem readMembers?_brace (members : List (Option String × Json)) {key : Option String}
    {rest'' : List Char} (hkey : readKey? (n + 1) (skipSpace cs) = some (key, rest))
    (h : readValue? n depth rest = some (item, rest'))
    (hrest : skipSpace rest' = '}' :: rest'') :
    readMembers? (n + 1) depth members cs =
      some (ofMembers ((key, item) :: members).reverse, rest'') := by
  rw [readMembers?, hkey]
  dsimp only
  rw [h]
  dsimp only
  rw [hrest]
  rfl

end Parts

theorem readKey?_quote (key : String) (rest : List Char) {n : Nat}
    (h : (quote key).length ≤ n + 1) :
    readKey? n (skipSpace (quote key ++ ':' :: rest)) = some (some key, rest) := by
  rw [quote_append, skipSpace_cons (by decide), readKey?, readString?_quote key _ h]
  rfl

/-- The members of which all keys can be read. -/
theorem ofMembers_some (members : List (String × Json)) :
    ofMembers (members.map fun member => (some member.1, member.2)) = .object members := by
  have hkeys : (members.map fun member => (some member.1, member.2)).mapM
      (fun (member : Option String × Json) => member.1.map (·, member.2)) = some members :=
    mapM_map fun _ _ => rfl
  rw [ofMembers, hkeys]

/-! ### Documents in front of a text -/

/-- A document that is read, in front of whatever does not go on with it, by an allowance of more
than twice its length. -/
def ReadsBack (s : Spacing) (j : Json) : Prop :=
  ∀ ⦃n depth : Nat⦄ ⦃rest : List Char⦄ (level : Nat), j.Fits → j.depth ≤ depth →
    2 * (spacedChars s level j).length < n → Closed rest →
      readValue? n depth (spacedChars s level j ++ rest) = some (j.written, rest)

/-- White space goes on with no number, and neither does what stands behind it here. -/
theorem Blank.closed {gap : List Char} (h : Blank gap) {c : Char} (hc : c ∈ [',', ']', '}'])
    (rest : List Char) : Closed (gap ++ c :: rest) := by
  rcases gap with _ | ⟨b, gap⟩
  · rintro _ ⟨⟩
    simp only [List.mem_cons, List.not_mem_nil, or_false] at hc
    rcases hc with rfl | rfl | rfl <;> decide
  · rintro _ ⟨⟩
    have hb := h b List.mem_cons_self
    simp only [isSpace, Bool.or_eq_true, decide_eq_true_eq] at hb
    rcases hb with ((rfl | rfl) | rfl) | rfl <;> decide

theorem closed_comma (rest : List Char) : Closed (',' :: rest) :=
  Blank.closed (List.forall_mem_nil _ : Blank []) (by simp) rest

variable {s : Spacing}

theorem readItems?_spacedItems {items : List Json} (hne : items ≠ [])
    (hitems : ∀ item ∈ items, item.ReadsBack s) {n depth : Nat} (level : Nat)
    (hfits : FitsItems items) (hdepth : depthItems items ≤ depth)
    (hn : 2 * (spacedItems s level items).length + 1 < n) (done : List Json)
    {gap : List Char} (hgap : Blank gap) (rest : List Char) :
    readItems? n depth done (spacedItems s level items ++ (gap ++ ']' :: rest)) =
      some (.array (done.reverse ++ writtenItems items), rest) := by
  induction items generalizing n done with
  | nil => exact absurd rfl hne
  | cons item items ih =>
    obtain ⟨n, rfl⟩ : ∃ m, n = m + 1 := ⟨n - 1, by omega⟩
    simp only [depthItems, max_le_iff] at hdepth
    have hitem (h : 2 * (spacedChars s level item).length < n) {rest : List Char}
        (hrest : Closed rest) : readValue? n depth (s.gap level ++ (spacedChars s level item ++
          rest)) = some (item.written, rest) := by
      rw [(s.blank_gap level).readValue?_append]
      exact hitems item List.mem_cons_self level hfits.1 hdepth.1 h hrest
    rcases items with _ | ⟨second, items⟩
    · simp only [spacedItems, List.length_append] at hn
      have hread := hitem (by omega) (hgap.closed (c := ']') (by simp) rest)
      rw [spacedItems, List.append_assoc,
        readItems?_bracket done hread (hgap.skipSpace_append _), List.reverse_cons]
      rfl
    · simp only [spacedItems, List.length_append, List.length_cons] at hn
      have hread := hitem (by omega)
        (closed_comma (spacedItems s level (second :: items) ++ (gap ++ ']' :: rest)))
      have hrest := ih (by simp) (fun item h => hitems item (List.mem_cons_of_mem _ h)) hfits.2
        hdepth.2 (n := n) (by omega) (item.written :: done)
      rw [spacedItems, List.append_assoc, List.append_assoc, List.cons_append,
        readItems?_comma done hread, hrest, List.reverse_cons, List.append_assoc]
      · rfl
      · simp

theorem readMembers?_spacedMembers {members : List (String × Json)} (hne : members ≠ [])
    (hmembers : ∀ member ∈ members, member.2.ReadsBack s) {n depth : Nat} (level : Nat)
    (hfits : FitsMembers members) (hdepth : depthMembers members ≤ depth)
    (hn : 2 * (spacedMembers s level members).length + 1 < n) (done : List (String × Json))
    {gap : List Char} (hgap : Blank gap) (rest : List Char) :
    readMembers? n depth (done.map fun member => (some member.1, member.2))
        (spacedMembers s level members ++ (gap ++ '}' :: rest)) =
      some (.object (done.reverse ++ writtenMembers members), rest) := by
  induction members generalizing n done with
  | nil => exact absurd rfl hne
  | cons member members ih =>
    obtain ⟨key, value⟩ := member
    obtain ⟨n, rfl⟩ : ∃ m, n = m + 1 := ⟨n - 1, by omega⟩
    simp only [depthMembers, max_le_iff] at hdepth
    have hkey (h : (quote key).length ≤ n) (rest : List Char) :
        readKey? (n + 1) (skipSpace (s.gap level ++ (quote key ++ ':' :: rest))) =
          some (some key, rest) := by
      rw [(s.blank_gap level).skipSpace_append]
      exact readKey?_quote key rest (by omega)
    have hvalue (h : 2 * (spacedChars s level value).length < n) {rest : List Char}
        (hrest : Closed rest) : readValue? n depth (s.colon ++ (spacedChars s level value ++
          rest)) = some (value.written, rest) := by
      rw [s.blank_colon.readValue?_append]
      exact hmembers (key, value) List.mem_cons_self level hfits.1 hdepth.1 h hrest
    rcases members with _ | ⟨second, members⟩
    · simp only [spacedMembers, List.length_append, List.length_cons] at hn
      have hread := hvalue (by omega) (hgap.closed (c := '}') (by simp) rest)
      simp only [spacedMembers, List.append_assoc, List.cons_append]
      rw [readMembers?_brace _ (hkey (by omega) _) hread (hgap.skipSpace_append _)]
      have hdone := ofMembers_some ((key, value.written) :: done).reverse
      rw [List.map_reverse, List.map_cons] at hdone
      rw [hdone, List.reverse_cons]
      rfl
    · simp only [spacedMembers, List.length_append, List.length_cons] at hn
      have hread := hvalue (by omega)
        (closed_comma (spacedMembers s level (second :: members) ++ (gap ++ '}' :: rest)))
      have hrest := ih (by simp) (fun member h => hmembers member (List.mem_cons_of_mem _ h))
        hfits.2 hdepth.2 (n := n) (by omega) ((key, value.written) :: done)
      rw [List.map_cons] at hrest
      simp only [spacedMembers, List.append_assoc, List.cons_append]
      rw [readMembers?_comma _ (hkey (by omega) _) hread, hrest, List.reverse_cons,
        List.append_assoc]
      rfl

/-- A document in front of a text that does not go on with it is read up to its end. -/
theorem readsBack (s : Spacing) (j : Json) : j.ReadsBack s := by
  have hscalar {n depth : Nat} {cs : List Char} {r : Json × List Char} (hn : 0 < n)
      (h : readScalar? n cs = some r) : readValue? n depth cs = some r := by
    obtain ⟨n, rfl⟩ : ∃ m, n = m + 1 := ⟨n - 1, by omega⟩
    exact readValue?_of_readScalar? h
  induction j with
  | null => exact fun n depth rest _ _ _ hn _ => hscalar (Nat.zero_lt_of_lt hn) rfl
  | unreadable => exact fun n depth rest _ _ _ hn _ => hscalar (Nat.zero_lt_of_lt hn) rfl
  | boolean flag =>
    intro n depth rest _ _ _ hn _
    refine hscalar (Nat.zero_lt_of_lt hn) ?_
    cases flag <;> rfl
  | integer i =>
    intro n depth rest _ hfits _ hn hrest
    exact hscalar (Nat.zero_lt_of_lt hn) (readScalar?_integer n hfits.1 hfits.2 hrest)
  | number x =>
    intro n depth rest _ _ _ hn hrest
    refine hscalar (Nat.zero_lt_of_lt hn) ?_
    by_cases hfinite : x.isFinite = true
    · rw [written, if_pos hfinite]
      exact readScalar?_number n hfinite hrest
    · rw [written, if_neg hfinite, spacedChars, compactChars, numberChars, if_neg hfinite]
      · rfl
      all_goals nofun
  | string text =>
    intro n depth rest _ _ _ hn _
    refine hscalar (Nat.zero_lt_of_lt hn) ?_
    have hchars (level : Nat) : spacedChars s level (.string text) = quote text := rfl
    have hlength : (quote text).length ≤ n + 1 := by
      rw [hchars] at hn
      omega
    rw [hchars, quote_append, readScalar?, readString?_quote text rest hlength]
    rfl
  | array items ih =>
    intro n depth rest level hfits hdepth hn _
    obtain ⟨n, rfl⟩ : ∃ m, n = m + 1 := ⟨n - 1, by omega⟩
    simp only [Json.depth] at hdepth
    obtain ⟨depth, rfl⟩ : ∃ d, depth = d + 1 := ⟨depth - 1, by omega⟩
    rcases items with _ | ⟨item, items⟩
    · rfl
    · simp only [spacedChars, List.length_cons, List.length_append, List.length_nil] at hn
      simp only [spacedChars, List.cons_append, List.append_assoc, List.nil_append]
      exact readValue?_of_readItems? (readItems?_spacedItems (by simp) ih _ hfits (by omega)
        (by omega) [] (s.blank_gap level) rest)
  | object members ih =>
    intro n depth rest level hfits hdepth hn _
    obtain ⟨n, rfl⟩ : ∃ m, n = m + 1 := ⟨n - 1, by omega⟩
    simp only [Json.depth] at hdepth
    obtain ⟨depth, rfl⟩ : ∃ d, depth = d + 1 := ⟨depth - 1, by omega⟩
    rcases members with _ | ⟨member, members⟩
    · rfl
    · simp only [spacedChars, List.length_cons, List.length_append, List.length_nil] at hn
      simp only [spacedChars, List.cons_append, List.append_assoc, List.nil_append]
      exact readValue?_of_readMembers? (readMembers?_spacedMembers (by simp) ih _ hfits (by omega)
        (by omega) [] (s.blank_gap level) rest)

theorem readValue?_spacedChars (s : Spacing) (level : Nat) {j : Json} {n depth : Nat}
    (hfits : j.Fits) (hdepth : j.depth ≤ depth) (hn : 2 * (spacedChars s level j).length < n) :
    readValue? n depth (spacedChars s level j) = some (j.written, []) := by
  have hclosed : Closed [] := fun _ h => nomatch h
  simpa using readsBack s j level hfits hdepth hn hclosed

/-- A text of a document that is not nested too deep is read back. -/
theorem parse?_spacedChars (s : Spacing) (level : Nat) {j : Json} (hfits : j.Fits)
    (hdepth : j.depth ≤ maxOpen) :
    parse? (String.ofList (spacedChars s level j)) = some j.written := by
  have hread := readValue?_spacedChars s level hfits hdepth
    (by omega : _ < 2 * (spacedChars s level j).length + 2)
  simp only [parse?, String.toList_ofList, hread]
  rfl

/-- The compact text of a document that is not nested too deep is read back. -/
theorem parse?_compact {j : Json} (hfits : j.Fits) (hdepth : j.depth ≤ maxOpen) :
    parse? j.compact = some j.written := by
  rw [compact, compactChars_eq j 0]
  exact parse?_spacedChars .compact 0 hfits hdepth

/-- The text of a document on lines of its own is read back. -/
theorem parse?_pretty {j : Json} (hfits : j.Fits) (hdepth : j.depth ≤ maxOpen) :
    parse? j.pretty = some j.written := by
  rw [pretty, prettyChars_eq]
  exact parse?_spacedChars .pretty 0 hfits hdepth

/-- Documents with the same compact text keep the same. -/
theorem written_eq_of_compact_eq {j j' : Json} (hfits : j.Fits) (hfits' : j'.Fits)
    (h : j.compact = j'.compact) : j.written = j'.written := by
  have hchars : j.compactChars = j'.compactChars := by
    simpa [compact] using congrArg String.toList h
  rw [compactChars_eq j 0, compactChars_eq j' 0] at hchars
  have hread := readValue?_spacedChars .compact 0 hfits (Nat.le_max_left j.depth j'.depth)
    (Nat.lt_succ_self (2 * (spacedChars .compact 0 j).length))
  rw [hchars, readValue?_spacedChars .compact 0 hfits' (Nat.le_max_right j.depth j'.depth)
    (Nat.lt_succ_self (2 * (spacedChars .compact 0 j').length))] at hread
  exact (congrArg Prod.fst (Option.some.inj hread)).symm

/-! ### The nesting of what is read -/

theorem depthItems_le_iff {items : List Json} {depth : Nat} :
    depthItems items ≤ depth ↔ ∀ item ∈ items, item.depth ≤ depth := by
  induction items with
  | nil => simp [depthItems]
  | cons item items ih => simp [depthItems, ih]

theorem depthMembers_le_iff {members : List (String × Json)} {depth : Nat} :
    depthMembers members ≤ depth ↔ ∀ member ∈ members, member.2.depth ≤ depth := by
  induction members with
  | nil => simp [depthMembers]
  | cons member members ih => simp [depthMembers, ih]

theorem depth_ofMembers_le {members : List (Option String × Json)} {depth : Nat}
    (h : ∀ member ∈ members, member.2.depth ≤ depth) : (ofMembers members).depth ≤ depth + 1 := by
  unfold ofMembers
  split
  · rename_i known hknown
    refine Nat.succ_le_succ (depthMembers_le_iff.mpr fun member hmember => ?_)
    obtain ⟨⟨key, value⟩, hmem, hread⟩ := exists_of_mem_mapM hknown hmember
    obtain ⟨-, -, rfl⟩ := Option.map_eq_some_iff.mp hread
    exact h _ hmem
  · exact Nat.zero_le _

theorem depth_of_readNumber? {negative : Bool} {cs : List Char} {r : Json × List Char}
    (h : readNumber? negative cs = some r) : r.1.depth = 0 := by
  have hmagnitude (x : Double) : (ofMagnitude negative x).depth = 0 := by
    unfold ofMagnitude
    split_ifs <;> rfl
  have hwhole (digits : List Char) : (ofWhole negative digits).depth = 0 := by
    simp only [ofWhole]
    split_ifs
    · rfl
    · rfl
    · exact hmagnitude _
  simp only [readNumber?, bind, Option.bind_eq_some_iff] at h
  obtain ⟨whole, -, fraction, -, exponent, -, h⟩ := h
  split_ifs at h
  · obtain rfl := Option.some.inj h
    exact hwhole _
  · obtain rfl := Option.some.inj h
    exact hmagnitude _

theorem depth_of_readScalar? {n : Nat} {cs : List Char} {r : Json × List Char}
    (h : readScalar? n cs = some r) : r.1.depth = 0 := by
  have hword {word : String} {j : Json} (hj : j.depth = 0) (h : readWord? word j cs = some r) :
      r.1.depth = 0 := by
    simp only [readWord?] at h
    split_ifs at h
    obtain rfl := Option.some.inj h
    exact hj
  unfold readScalar? at h
  split at h
  · obtain ⟨⟨text, rest⟩, -, rfl⟩ := Option.map_eq_some_iff.mp h
    cases text <;> rfl
  · exact hword rfl h
  · exact hword rfl h
  · exact hword rfl h
  · exact depth_of_readNumber? h
  · exact depth_of_readNumber? h

/-- What three readers with one allowance give is nested no deeper than they may open. -/
structure ReadsWithin (n : Nat) : Prop where
  value : ∀ {depth cs r}, readValue? n depth cs = some r → r.1.depth ≤ depth
  items : ∀ {depth items cs r}, (∀ item ∈ items, item.depth ≤ depth) →
    readItems? n depth items cs = some r → r.1.depth ≤ depth + 1
  members : ∀ {depth members cs r}, (∀ member ∈ members, member.2.depth ≤ depth) →
    readMembers? n depth members cs = some r → r.1.depth ≤ depth + 1

theorem ReadsWithin.zero : ReadsWithin 0 :=
  ⟨fun h => (nomatch h), fun _ h => (nomatch h), fun _ h => (nomatch h)⟩

theorem ReadsWithin.succ {n : Nat} (ih : ReadsWithin n) : ReadsWithin (n + 1) where
  value {depth cs r} h := by
    rw [readValue?] at h
    split at h
    · split at h
      · obtain ⟨rest, -, rfl⟩ := Option.map_eq_some_iff.mp h
        exact Nat.le_refl _
      · split at h
        · obtain rfl := Option.some.inj h
          exact Nat.succ_le_succ (Nat.zero_le _)
        · exact ih.items (List.forall_mem_nil _) h
    · split at h
      · obtain ⟨rest, -, rfl⟩ := Option.map_eq_some_iff.mp h
        exact Nat.le_refl _
      · split at h
        · obtain rfl := Option.some.inj h
          exact Nat.succ_le_succ (Nat.zero_le _)
        · exact ih.members (List.forall_mem_nil _) h
    · rw [depth_of_readScalar? h]
      exact Nat.zero_le _
  items {depth items cs r} hitems h := by
    rw [readItems?] at h
    split at h
    · cases h
    · rename_i item rest hitem
      have hall : ∀ i ∈ item :: items, i.depth ≤ depth :=
        List.forall_mem_cons.mpr ⟨ih.value hitem, hitems⟩
      split at h
      · exact ih.items hall h
      · obtain rfl := Option.some.inj h
        refine Nat.succ_le_succ (depthItems_le_iff.mpr fun i hi => hall i ?_)
        exact List.mem_reverse.mp hi
      · cases h
  members {depth members cs r} hmembers h := by
    rw [readMembers?] at h
    split at h
    · cases h
    · split at h
      · cases h
      · rename_i key _ _ _ value rest hvalue
        have hall : ∀ m ∈ (key, value) :: members, m.2.depth ≤ depth :=
          List.forall_mem_cons.mpr ⟨ih.value hvalue, hmembers⟩
        split at h
        · exact ih.members hall h
        · obtain rfl := Option.some.inj h
          exact depth_ofMembers_le fun m hm => hall m (List.mem_reverse.mp hm)
        · cases h

theorem readsWithin (n : Nat) : ReadsWithin n := by
  induction n with
  | zero => exact .zero
  | succ n ih => exact ih.succ

/-- A text is read as a document that is not nested too deep. -/
theorem depth_le_of_parse? {text : String} {j : Json} (h : parse? text = some j) :
    j.depth ≤ maxOpen := by
  simp only [parse?] at h
  split at h
  · rename_i r rest hread
    split_ifs at h
    obtain rfl := Option.some.inj h
    exact (readsWithin _).value hread
  · cases h

end Covenant.Json
