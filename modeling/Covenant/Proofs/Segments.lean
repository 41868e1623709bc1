import Covenant.Proofs.Noninterference
import Covenant.Proofs.TemplateText

/-!
# The parts of a template text

What the placeholders of a text are is said without a scanner: at the leftmost two opening braces,
the text up to the next two closing braces is a placeholder if it is an identifier with blanks
around it, and the parts behind it are found in the same way; otherwise the first brace is text.
Every text has one list of parts in this sense, and it is the one that the scanner finds. Replacing
placeholders works on these parts alone, so that nothing that was filled in is looked at again.

## Main definitions

* `Leftmost` : a doubled character does not occur further to the left.
* `Part`, `Parts` : a piece of a text, and the pieces of a text.
* `Template.Takes` : parameters that pass all checks.

## Main results

* `Parts.unique`, `exists_parts` : every text has one list of parts.
* `Parts.substitute` : replacing placeholders, part by part.
* `Template.source_eq_fill` : the text of a template for resolved parameters, part by part.
* `placeholders_scanned` : placeholders are found in one pass, and instantiation fills in all.
-/

namespace Covenant

/-! ### Doubled characters -/

/-- With the doubled character behind it, a text has the doubled character nowhere further left. -/
def Leftmost (c : Char) (front : List Char) : Prop :=
  ¬[c, c] <:+: front ++ [c]

theorem doubled_prefix_iff {c d : Char} {cs : List Char} :
    [c, c] <+: d :: cs ↔ d = c ∧ cs.head? = some c := by
  rcases cs with _ | ⟨e, cs⟩
  · simp
  · simp [List.cons_prefix_cons, eq_comm]

theorem leftmost_nil (c : Char) : Leftmost c [] := by
  simp [Leftmost, List.infix_cons_iff]

theorem leftmost_cons {c d : Char} {front : List Char} : Leftmost c (d :: front) ↔
    ¬(d = c ∧ (front ++ [c]).head? = some c) ∧ Leftmost c front := by
  rw [Leftmost, List.cons_append, List.infix_cons_iff, not_or, doubled_prefix_iff, Leftmost]

/-- What comes next does not depend on what stands behind the doubled character. -/
theorem head?_append_doubled (c : Char) (front rest : List Char) :
    (front ++ c :: c :: rest).head? = (front ++ [c]).head? := by
  cases front <;> rfl

theorem Leftmost.ne_doubled {c d : Char} {front rest rest' : List Char}
    (h : Leftmost c (d :: front)) : d :: front ++ c :: c :: rest ≠ c :: c :: rest' := by
  intro heq
  obtain ⟨rfl, htail⟩ := List.cons.inj heq
  replace htail : front ++ d :: d :: rest = d :: rest' := htail
  refine (leftmost_cons.mp h).1 ⟨rfl, ?_⟩
  rw [← head?_append_doubled d front rest, htail]
  rfl

theorem Leftmost.unique {c : Char} {front front' rest rest' : List Char} (h : Leftmost c front)
    (h' : Leftmost c front') (heq : front ++ c :: c :: rest = front' ++ c :: c :: rest') :
    front = front' ∧ rest = rest' := by
  induction front generalizing front' with
  | nil =>
    rcases front' with _ | ⟨d, front'⟩
    · exact ⟨rfl, (List.cons.inj (List.cons.inj heq).2).2⟩
    · exact absurd heq.symm h'.ne_doubled
  | cons d front ih =>
    rcases front' with _ | ⟨d', front'⟩
    · exact absurd heq h.ne_doubled
    · obtain ⟨rfl, htail⟩ := List.cons.inj heq
      obtain ⟨rfl, rfl⟩ := ih (leftmost_cons.mp h).2 (leftmost_cons.mp h').2 htail
      exact ⟨rfl, rfl⟩

theorem exists_leftmost {c : Char} {cs : List Char} (h : [c, c] <:+: cs) :
    ∃ front rest, cs = front ++ c :: c :: rest ∧ Leftmost c front := by
  induction cs with
  | nil => simp at h
  | cons d cs ih =>
    by_cases hd : d = c ∧ cs.head? = some c
    · obtain ⟨rfl, hhead⟩ := hd
      obtain ⟨rest, rfl⟩ := List.head?_eq_some_iff.mp hhead
      exact ⟨[], rest, rfl, leftmost_nil d⟩
    · rw [List.infix_cons_iff, doubled_prefix_iff] at h
      obtain ⟨front, rest, rfl, hfront⟩ := ih (h.resolve_left hd)
      rw [head?_append_doubled] at hd
      exact ⟨d :: front, rest, rfl, leftmost_cons.mpr ⟨hd, hfront⟩⟩

theorem infix_doubled {c : Char} (front rest : List Char) :
    [c, c] <:+: front ++ c :: c :: rest :=
  ⟨front, rest, by simp⟩

/-! ### Parts -/

/-- A piece of a template text. -/
inductive Part where
  | text (cs : List Char)
  /-- A placeholder, with all that it is written with. -/
  | placeholder (name : String) (spelling : List Char)

/-- What a part becomes: text stays, and so does a placeholder without a replacement. -/
def Part.fill (replace : String → Option (List Char)) : Part → List Char
  | text cs => cs
  | placeholder name spelling => (replace name).getD spelling

/-- The parts of a text. -/
inductive Parts : List Char → List Part → Prop
  | text {cs} : ¬['{', '{'] <:+: cs → Parts cs [.text cs]
  | placeholder {front body rest parts} : Leftmost '{' front → Leftmost '}' body →
    isIdentifier (Text.trim (String.ofList body)) = true → Parts rest parts →
    Parts (front ++ '{' :: '{' :: (body ++ '}' :: '}' :: rest))
      (.text front :: .placeholder (Text.trim (String.ofList body))
        ('{' :: '{' :: (body ++ ['}', '}'])) :: parts)
  | brace {front rest parts} : Leftmost '{' front →
    (∀ body after, rest = body ++ '}' :: '}' :: after → Leftmost '}' body →
      isIdentifier (Text.trim (String.ofList body)) = false) →
    Parts ('{' :: rest) parts →
    Parts (front ++ '{' :: '{' :: rest) (.text (front ++ ['{']) :: parts)

namespace Parts

variable {cs : List Char} {parts parts' : List Part}

/-- A text has at most one list of parts. -/
theorem unique (h : Parts cs parts) (h' : Parts cs parts') : parts = parts' := by
  induction h generalizing parts' with
  | @text cs hnone =>
    cases h' with
    | text => rfl
    | placeholder => exact absurd (infix_doubled _ _) hnone
    | brace => exact absurd (infix_doubled _ _) hnone
  | @placeholder front body rest parts hfront hbody hname _ ih =>
    generalize hcs : front ++ '{' :: '{' :: (body ++ '}' :: '}' :: rest) = cs' at h'
    cases h' with
    | text hnone => exact absurd (hcs ▸ infix_doubled _ _) hnone
    | placeholder hfront' hbody' _ hrest' =>
      obtain ⟨rfl, hinner⟩ := hfront.unique hfront' hcs
      obtain ⟨rfl, rfl⟩ := hbody.unique hbody' hinner
      rw [ih hrest']
    | brace hfront' hno =>
      obtain ⟨rfl, rfl⟩ := hfront.unique hfront' hcs
      exact absurd (hno body rest rfl hbody) (by simp [hname])
  | @brace front rest parts hfront hno _ ih =>
    generalize hcs : front ++ '{' :: '{' :: rest = cs' at h'
    cases h' with
    | text hnone => exact absurd (hcs ▸ infix_doubled _ _) hnone
    | placeholder hfront' hbody' hname' =>
      obtain ⟨rfl, rfl⟩ := hfront.unique hfront' hcs
      exact absurd (hno _ _ rfl hbody') (by simp [hname'])
    | brace hfront' _ hrest' =>
      obtain ⟨rfl, rfl⟩ := hfront.unique hfront' hcs
      rw [ih hrest']

/-- A text is what its parts are written as. -/
theorem fill_none (h : Parts cs parts) : parts.flatMap (Part.fill fun _ => none) = cs := by
  induction h with
  | text => simp [Part.fill]
  | placeholder _ _ _ _ ih => simp [Part.fill, ih]
  | brace _ _ _ ih => simp [Part.fill, ih]

end Parts

/-- Every text has a list of parts. -/
theorem exists_parts (cs : List Char) : ∃ parts, Parts cs parts := by
  induction hlength : cs.length using Nat.strong_induction_on generalizing cs with
  | _ n ih =>
    by_cases hnone : ['{', '{'] <:+: cs
    · obtain ⟨front, rest, rfl, hfront⟩ := exists_leftmost hnone
      by_cases hplaceholder : ∃ body after, rest = body ++ '}' :: '}' :: after ∧
          Leftmost '}' body ∧ isIdentifier (Text.trim (String.ofList body)) = true
      · obtain ⟨body, after, rfl, hbody, hname⟩ := hplaceholder
        obtain ⟨parts, hparts⟩ := ih after.length (by simp at hlength; omega) after rfl
        exact ⟨_, .placeholder hfront hbody hname hparts⟩
      · have hno (body after : List Char) (hrest : rest = body ++ '}' :: '}' :: after)
            (hbody : Leftmost '}' body) :
            isIdentifier (Text.trim (String.ofList body)) = false := by
          by_contra hname
          exact hplaceholder ⟨body, after, hrest, hbody, by simpa using hname⟩
        obtain ⟨parts, hparts⟩ := ih ('{' :: rest).length (by simp at hlength ⊢; omega) _ rfl
        exact ⟨_, .brace hfront hno hparts⟩
    · exact ⟨_, .text hnone⟩

/-! ### The scanner -/

/-- The segments that a part consists of. -/
def Part.segments : Part → List Segment
  | text cs => cs.map Segment.plain
  | placeholder name spelling => [.placeholder name spelling]

namespace Segment

theorem splitClosing_eq_some_iff {cs body rest : List Char} :
    splitClosing cs = some (body, rest) ↔ cs = body ++ '}' :: '}' :: rest ∧ Leftmost '}' body := by
  constructor
  · intro h
    fun_induction splitClosing cs generalizing body with
    | case1 after =>
      cases h
      exact ⟨rfl, leftmost_nil _⟩
    | case2 c cs hopen ih =>
      obtain ⟨⟨inner, after⟩, hinner, h⟩ := Option.map_eq_some_iff.mp h
      cases h
      obtain ⟨rfl, hleftmost⟩ := ih hinner
      refine ⟨rfl, leftmost_cons.mpr ⟨?_, hleftmost⟩⟩
      rintro ⟨rfl, hhead⟩
      rw [← head?_append_doubled '}' inner rest] at hhead
      obtain ⟨tail, htail⟩ := List.head?_eq_some_iff.mp hhead
      exact hopen tail rfl htail
    | case3 => cases h
  · rintro ⟨rfl, hbody⟩
    induction body with
    | nil => rfl
    | cons c body ih =>
      obtain ⟨hc, hrest⟩ := leftmost_cons.mp hbody
      rw [← head?_append_doubled '}' body rest] at hc
      rw [List.cons_append, splitClosing.eq_2, ih hrest]
      · rfl
      · rintro tail rfl htail
        exact hc ⟨rfl, by rw [htail]; rfl⟩

theorem placeholder?_of_leftmost {body rest : List Char} (h : Leftmost '}' body)
    (hname : isIdentifier (Text.trim (String.ofList body)) = true) :
    placeholder? (body ++ '}' :: '}' :: rest) =
      some (.placeholder (Text.trim (String.ofList body)) ('{' :: '{' :: (body ++ ['}', '}'])),
        rest) := by
  have hsplit : splitClosing (body ++ '}' :: '}' :: rest) = some (body, rest) :=
    splitClosing_eq_some_iff.mpr ⟨rfl, h⟩
  rw [Text.trim, String.toList_ofList] at hname ⊢
  simp [placeholder?, hsplit, hname]

theorem placeholder?_eq_none {rest : List Char}
    (h : ∀ body after, rest = body ++ '}' :: '}' :: after → Leftmost '}' body →
      isIdentifier (Text.trim (String.ofList body)) = false) : placeholder? rest = none := by
  unfold placeholder?
  rcases hsplit : splitClosing rest with _ | ⟨body, after⟩
  · rfl
  · obtain ⟨hrest, hbody⟩ := splitClosing_eq_some_iff.mp hsplit
    have hname := h body after hrest hbody
    rw [Text.trim, String.toList_ofList] at hname
    simp [hname]

theorem scan_plain {n : Nat} {found : List Segment} {c : Char} {cs : List Char}
    (h : ¬(c = '{' ∧ cs.head? = some '{')) :
    scan (n + 1) found (c :: cs) = scan n (plain c :: found) cs := by
  rw [scan.eq_4]
  rintro rest rfl rfl
  exact h ⟨rfl, rfl⟩

/-- Text without two opening braces. -/
theorem scan_text {n : Nat} {found : List Segment} {cs : List Char} (hn : cs.length ≤ n)
    (h : ¬['{', '{'] <:+: cs) : scan n found cs = found.reverse ++ cs.map plain := by
  induction cs generalizing n found with
  | nil => cases n <;> simp [scan]
  | cons c cs ih =>
    rcases n with _ | n
    · cases hn
    rw [List.infix_cons_iff, doubled_prefix_iff, not_or] at h
    rw [scan_plain h.1, ih (Nat.le_of_succ_le_succ hn) h.2]
    simp

/-- Text in front of two opening braces. -/
theorem scan_front {n : Nat} {found : List Segment} {front rest : List Char}
    (h : Leftmost '{' front) : scan (front.length + n) found (front ++ '{' :: '{' :: rest) =
      scan n ((front.map plain).reverse ++ found) ('{' :: '{' :: rest) := by
  induction front generalizing found with
  | nil => simp
  | cons c front ih =>
    obtain ⟨hc, hfront⟩ := leftmost_cons.mp h
    rw [← head?_append_doubled '{' front rest] at hc
    rw [List.length_cons, Nat.succ_add, List.cons_append, scan_plain hc, ih hfront]
    simp

end Segment

/-- The scanner finds the parts of a text. -/
theorem Parts.scan {cs : List Char} {parts : List Part} (h : Parts cs parts) {n : Nat}
    (hn : cs.length ≤ n) (found : List Segment) :
    Segment.scan n found cs = found.reverse ++ parts.flatMap Part.segments := by
  induction h generalizing n found with
  | text hnone =>
    rw [Segment.scan_text hn hnone]
    simp [Part.segments]
  | @placeholder front body rest parts hfront hbody hname _ ih =>
    simp only [List.length_append, List.length_cons] at hn
    obtain ⟨m, rfl⟩ : ∃ m, n = front.length + (m + 1) := ⟨n - front.length - 1, by omega⟩
    rw [Segment.scan_front hfront, Segment.scan,
      Segment.placeholder?_of_leftmost hbody hname]
    dsimp only
    rw [ih (by omega)]
    simp [Part.segments]
  | @brace front rest parts hfront hno _ ih =>
    simp only [List.length_append, List.length_cons] at hn
    obtain ⟨m, rfl⟩ : ∃ m, n = front.length + (m + 1) := ⟨n - front.length - 1, by omega⟩
    rw [Segment.scan_front hfront, Segment.scan, Segment.placeholder?_eq_none hno]
    dsimp only
    rw [ih (by rw [List.length_cons]; omega)]
    simp [Part.segments]

theorem Parts.segments {text : String} {parts : List Part} (h : Parts text.toList parts) :
    Segment.segments text = parts.flatMap Part.segments :=
  h.scan (Nat.le_refl _) []

/-- Replacing placeholders works part by part. -/
theorem Parts.substitute {text : String} {parts : List Part} (h : Parts text.toList parts)
    (replace : String → Option (List Char)) :
    substitute text replace = String.ofList (parts.flatMap (Part.fill replace)) := by
  rw [Covenant.substitute, h.segments, List.flatMap_assoc]
  congr 2
  funext part
  cases part with
  | text cs => simp [Part.segments, Part.fill, Segment.expand, List.flatMap_map]
  | placeholder name spelling => simp [Part.segments, Part.fill, Segment.expand]

/-! ### Templates -/

theorem mem_firstOccurrences_iff {found names : List String} {name : String} :
    name ∈ firstOccurrences found names ↔ name ∈ found ∨ name ∈ names := by
  refine ⟨fun h => ?_, Template.mem_firstOccurrences⟩
  induction names generalizing found with
  | nil => simpa [firstOccurrences] using h
  | cons other names ih =>
    rw [firstOccurrences] at h
    split at h <;> grind

namespace Template

variable {t : Template} {given done resolved : Table Value}

/-- The placeholders of a template are those among the parts of its text. -/
theorem mem_placeholders_iff {parts : List Part} (h : Parts t.script.toList parts) {name : String} :
    name ∈ t.placeholders ↔ ∃ spelling, .placeholder name spelling ∈ parts := by
  rw [placeholders, placeholderNames, mem_firstOccurrences_iff, h.segments]
  constructor
  · rintro (hnil | hmem)
    · cases hnil
    obtain ⟨segment, hsegment, hname⟩ := List.mem_filterMap.mp hmem
    obtain ⟨part, hpart, hsegment⟩ := List.mem_flatMap.mp hsegment
    cases part with
    | text cs =>
      obtain ⟨c, -, rfl⟩ := List.mem_map.mp hsegment
      cases hname
    | placeholder other spelling =>
      obtain rfl := List.mem_singleton.mp hsegment
      obtain rfl : other = name := Option.some.inj hname
      exact ⟨spelling, hpart⟩
  · rintro ⟨spelling, hpart⟩
    have hsegment : .placeholder name spelling ∈ parts.flatMap Part.segments :=
      List.mem_flatMap.mpr ⟨_, hpart, List.mem_singleton_self _⟩
    exact .inr (List.mem_filterMap.mpr ⟨_, hsegment, rfl⟩)

/-- The placeholders of a well-formed template are declared. -/
theorem exists_parameter (h : t.validate = .ok ()) {name : String} (hname : name ∈ t.placeholders) :
    ∃ p ∈ t.parameters, p.name = name := by
  rw [validate] at h
  split at h
  · obtain ⟨-, -, h⟩ := bind_eq_ok_iff.mp h
    exact exists_of_checkPlaceholders h hname
  · cases h

/-- Parameters that pass all checks of a template: those that must be given are, each that is given
is declared, and each has a value of its type. -/
structure Takes (t : Template) (given : Table Value) : Prop where
  required : ∀ p ∈ t.parameters, p.required = true → Table.contains p.name given = true
  declared : ∀ key ∈ Table.keys given, ∃ p ∈ t.parameters, p.name = key
  accepted : ∀ p ∈ t.parameters, ∃ v, resolve p (Table.find? p.name given) = .ok v

theorem notMem_of_checkParameters {declared : List String} {p : Parameter} {rest : List Parameter}
    (h : t.checkParameters declared (p :: rest) = .ok ()) : p.name ∉ declared := by
  intro hmem
  have hseen : declared.contains p.name = true := by simpa using hmem
  rw [checkParameters] at h
  by_cases hname : isIdentifier p.name = true
  · rw [if_pos hname, if_pos hseen] at h
    cases h
  · rw [if_neg hname] at h
    cases h

theorem nodup_of_checkParameters {declared : List String} {ps : List Parameter}
    (h : t.checkParameters declared ps = .ok ()) :
    (ps.map Parameter.name).Nodup ∧ ∀ p ∈ ps, p.name ∉ declared := by
  induction ps generalizing declared with
  | nil => exact ⟨List.nodup_nil, List.forall_mem_nil _⟩
  | cons p ps ih =>
    obtain ⟨hnodup, hapart⟩ := ih (checkParameters_cons h).2
    refine ⟨List.nodup_cons.mpr ⟨fun hmem => ?_, hnodup⟩, ?_⟩
    · obtain ⟨q, hq, hname⟩ := List.mem_map.mp hmem
      exact hapart q hq (hname ▸ List.mem_cons_self)
    · refine List.forall_mem_cons.mpr ⟨notMem_of_checkParameters h, fun q hq hmem => ?_⟩
      exact hapart q hq (List.mem_cons_of_mem _ hmem)

/-- The parameters of a well-formed template have different names. -/
theorem nodup_of_validate (h : t.validate = .ok ()) : (t.parameters.map Parameter.name).Nodup := by
  rw [validate] at h
  split at h
  · obtain ⟨_, hparameters, -⟩ := bind_eq_ok_iff.mp h
    exact (nodup_of_checkParameters hparameters).1
  · cases h

theorem exists_resolveAll {ps : List Parameter}
    (h : ∀ p ∈ ps, ∃ v, resolve p (Table.find? p.name given) = .ok v) (done : Table Value) :
    ∃ resolved, resolveAll given done ps = .ok resolved := by
  induction ps generalizing done with
  | nil => exact ⟨done, rfl⟩
  | cons p ps ih =>
    obtain ⟨⟨v, hv⟩, hps⟩ := List.forall_mem_cons.mp h
    obtain ⟨resolved, hresolved⟩ := ih hps (done.insert p.name v)
    exact ⟨resolved, bind_eq_ok_iff.mpr ⟨v, hv, hresolved⟩⟩

theorem find?_resolveAll_of_ne {ps : List Parameter} {name : String}
    (h : resolveAll given done ps = .ok resolved) (hname : ∀ p ∈ ps, p.name ≠ name) :
    Table.find? name resolved = Table.find? name done := by
  induction ps generalizing done with
  | nil =>
    cases h
    rfl
  | cons p ps ih =>
    obtain ⟨hp, hps⟩ := List.forall_mem_cons.mp hname
    obtain ⟨v, -, h⟩ := bind_eq_ok_iff.mp h
    rw [ih h hps, Table.find?_insert, if_neg hp]

/-- Each parameter has the value that it takes. -/
theorem find?_resolveAll {ps : List Parameter} (h : resolveAll given done ps = .ok resolved)
    (hnodup : (ps.map Parameter.name).Nodup) {p : Parameter} (hp : p ∈ ps) :
    ∃ v, resolve p (Table.find? p.name given) = .ok v ∧ Table.find? p.name resolved = some v := by
  induction ps generalizing done with
  | nil => cases hp
  | cons q ps ih =>
    obtain ⟨v, hv, h⟩ := bind_eq_ok_iff.mp h
    rw [List.map_cons, List.nodup_cons] at hnodup
    rcases List.mem_cons.mp hp with rfl | hp
    · have hne : ∀ q ∈ ps, q.name ≠ p.name := fun q hq heq =>
        hnodup.1 (List.mem_map.mpr ⟨q, hq, heq⟩)
      refine ⟨v, hv, ?_⟩
      rw [find?_resolveAll_of_ne h hne, Table.find?_insert, if_pos rfl]
    · exact ih h hnodup.2 hp

/-- A template reads its text for the resolved parameters. -/
theorem Takes.instantiate (h : t.Takes given)
    (hresolved : resolveAll given [] t.parameters = .ok resolved) :
    (t.instantiate given).map (fun s => (s.source, s.statements)) =
      ((parse t.name (t.source resolved)).mapError Error.parse).map fun s =>
        (s.source, s.statements) := by
  have hrequired : (t.parameters.find? fun p =>
      p.required && !Table.contains p.name given) = none := by
    rw [List.find?_eq_none]
    intro p hp
    simpa using h.required p hp
  have hdeclared : ((Table.keys given).find? fun key =>
      !t.parameters.any fun p => p.name = key) = none := by
    rw [List.find?_eq_none]
    intro key hkey
    simpa using h.declared key hkey
  rw [Template.instantiate, hrequired, hdeclared]
  simp only [bind, Except.bind, pure, Except.pure, hresolved]
  cases parse t.name (t.source resolved) <;> rfl

/-- The text for resolved parameters, part by part. -/
theorem source_eq_fill {parts : List Part} (hparts : Parts t.script.toList parts)
    {value : String → Value}
    (hvalue : ∀ name ∈ t.placeholders, Table.find? name resolved = some (value name)) :
    t.source resolved =
      String.ofList (parts.flatMap (Part.fill fun name => some (value name).renderChars)) := by
  rw [source, hparts.substitute]
  congr 1
  refine List.flatMap_congr fun part hpart => ?_
  cases part with
  | text cs => rfl
  | placeholder name spelling =>
    have hname := hvalue name ((mem_placeholders_iff hparts).mpr ⟨spelling, hpart⟩)
    simp [Part.fill, hname]

end Template

/-- Placeholders are found in one pass from left to right. Every text has one list of parts, and
replacing placeholders works part by part; where nothing has a replacement, the text stays as it is.
For a well-formed template and parameters that pass all checks, the placeholders among the parts are
those that are listed, all of them are declared, and the text that is read has for each of them the
source form of the value that its parameter takes. -/
theorem placeholders_scanned :
    (∀ text : String, ∃ parts, Parts text.toList parts ∧
      (∀ parts', Parts text.toList parts' → parts' = parts) ∧
      (∀ replace, substitute text replace =
        String.ofList (parts.flatMap (Part.fill replace))) ∧
      (substitute text fun _ => none) = text) ∧
    ∀ (t : Template) (given : Table Value) (parts : List Part), t.validate = .ok () →
      t.Takes given → Parts t.script.toList parts →
      (∀ name, name ∈ t.placeholders ↔ ∃ spelling, .placeholder name spelling ∈ parts) ∧
      (∀ name ∈ t.placeholders, ∃ p ∈ t.parameters, p.name = name) ∧
      ∃ value : String → Value,
        (∀ p ∈ t.parameters,
          Template.resolve p (Table.find? p.name given) = .ok (value p.name)) ∧
        (t.instantiate given).map (fun s => (s.source, s.statements)) =
          ((parse t.name (String.ofList (parts.flatMap
            (Part.fill fun name => some (value name).renderChars)))).mapError Error.parse).map
              fun s => (s.source, s.statements) := by
  refine ⟨fun text => ?_, fun t given parts hvalid htakes hparts => ?_⟩
  · obtain ⟨parts, hparts⟩ := exists_parts text.toList
    refine ⟨parts, hparts, fun _ hparts' => hparts'.unique hparts, hparts.substitute, ?_⟩
    rw [hparts.substitute, hparts.fill_none, String.ofList_toList]
  · have hdeclared (name : String) (hname : name ∈ t.placeholders) :=
      Template.exists_parameter hvalid hname
    obtain ⟨resolved, hresolved⟩ := Template.exists_resolveAll htakes.accepted []
    have hfind {p : Parameter} (hp : p ∈ t.parameters) :=
      Template.find?_resolveAll hresolved (Template.nodup_of_validate hvalid) hp
    let value (name : String) : Value := (Table.find? name resolved).getD .null
    have hvalue (name : String) (hname : name ∈ t.placeholders) :
        Table.find? name resolved = some (value name) := by
      obtain ⟨p, hp, rfl⟩ := hdeclared name hname
      obtain ⟨v, -, hv⟩ := hfind hp
      simp [value, hv]
    refine ⟨fun name => Template.mem_placeholders_iff hparts, hdeclared, value, ?_, ?_⟩
    · intro p hp
      obtain ⟨v, hresolve, hv⟩ := hfind hp
      simp [value, hv, hresolve]
    · rw [htakes.instantiate hresolved, Template.source_eq_fill hparts hvalue]

/-- A template with a placeholder in braces of its own, one behind braces that open none, and braces
that are not closed. -/
def braces : Template where
  name := "braces"
  parameters := [{ name := "x", type := .string, required := true }]
  script := "print(\x7b\x7b\x7bx\x7d\x7d\x7d) // \x7b\x7b a: \x7b\x7b x \x7d\x7d \x7d\x7d \x7b\x7b"

/-- A value that is written like a placeholder. -/
def bracesGiven : Table Value :=
  [("x", .string "\x7b\x7bx\x7d\x7d")]

theorem placeholders_scanned_braces : ∃ parts, Parts braces.script.toList parts ∧
    (∃ spelling, .placeholder "x" spelling ∈ parts) ∧ ∃ value : String → Value,
      value "x" = .string "\x7b\x7bx\x7d\x7d" ∧
      (braces.instantiate bracesGiven).map (fun s => (s.source, s.statements)) =
        ((parse "braces" (String.ofList (parts.flatMap
          (Part.fill fun name => some (value name).renderChars)))).mapError Error.parse).map
            fun s => (s.source, s.statements) := by
  have hvalid : braces.validate = .ok () := by decide +kernel
  have htakes : braces.Takes bracesGiven := {
    required := by decide +kernel
    declared := by decide +kernel
    accepted := fun p hp => by
      obtain rfl := List.mem_singleton.mp hp
      exact ⟨.string "\x7b\x7bx\x7d\x7d", rfl⟩ }
  have hx : "x" ∈ braces.placeholders := by decide +kernel
  obtain ⟨parts, hparts, -⟩ := placeholders_scanned.1 braces.script
  obtain ⟨hnames, -, value, hvalue, hresult⟩ :=
    placeholders_scanned.2 braces bracesGiven parts hvalid htakes hparts
  have hresolve := hvalue _ (List.mem_singleton_self _)
  exact ⟨parts, hparts, (hnames "x").mp hx, value, (Except.ok.inj hresolve).symm, hresult⟩

/-- A brace that is left over stays, and what was filled in is not read again. -/
example : substitute braces.script (fun _ => some "\"\x7b\x7bx\x7d\x7d\"".toList) =
    "print(\x7b\"\x7b\x7bx\x7d\x7d\"\x7d) // " ++
      "\x7b\x7b a: \"\x7b\x7bx\x7d\x7d\" \x7d\x7d \x7b\x7b" := by
  decide +kernel

end Covenant
