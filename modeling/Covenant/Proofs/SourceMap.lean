import Covenant.Proofs.Constants
import Covenant.Proofs.Locations

/-!
# Source maps

The source map of a program that was made from a text has an entry for each statement, in their
order. The entry of a statement is at the first of the instructions made for it, and these go on up
to the entry of the next, which a separating instruction stands before. So every instruction is
found to be made for one statement.

Offsets are noted while code is put together. A listing of some statements is described by what the
next statement adds to it (`Emit.Lists`), and what the source map says follows by induction on that.

## Main definitions

* `Statement.atLevel` : a statement as it is compiled.
* `Emit.Lists` : a listing of statements that all have locations.
* `Program.start` : where the instructions of a statement start.
* `Program.Maps` : a source map of statements.

## Main results

* `Emit.emitScript_lists` : what is emitted for a script lists its statements.
* `Program.locationAt?_eq` : the lookup finds the statement whose instructions an offset is among.
* `compile_maps` : a compiled script maps its statements.
-/

namespace Covenant

/-- A statement as it is compiled: at every level but zero, folded. -/
def Statement.atLevel (level : UInt8) (s : Statement) : Statement :=
  if level = 0 then s else { s with expression := s.expression.fold }

theorem Statement.location_atLevel (level : UInt8) (s : Statement) :
    (s.atLevel level).location = s.location := by
  unfold atLevel
  split_ifs <;> rfl

/-! ### Starts -/

/-- Where the instructions start that were made for a statement, and beyond the last statement where
they end. -/
def startOf (entries : List SourceEntry) (size k : Nat) : Nat :=
  (entries[k]?).elim size (·.offset.toNat)

section Starts

variable {entries more : List SourceEntry} {size size' k : Nat}

theorem startOf_getElem (hk : k < entries.length) :
    startOf entries size k = entries[k].offset.toNat := by
  rw [startOf, List.getElem?_eq_getElem hk]
  rfl

theorem startOf_length (entries : List SourceEntry) (size : Nat) :
    startOf entries size entries.length = size := by
  rw [startOf, List.getElem?_eq_none (Nat.le_refl _)]
  rfl

theorem startOf_append_left (hk : k < entries.length) :
    startOf (entries ++ more) size' k = startOf entries size k := by
  rw [startOf_getElem (List.length_append ▸ Nat.lt_add_right _ hk), startOf_getElem hk,
    List.getElem_append_left hk]

theorem startOf_le (hwithin : ∀ entry ∈ entries, entry.offset.toNat < size) (k : Nat) :
    startOf entries size k ≤ size := by
  unfold startOf
  cases hentry : entries[k]? with
  | none => exact Nat.le_refl _
  | some entry => exact (hwithin entry (List.mem_of_getElem? hentry)).le

theorem startOf_lt (hwithin : ∀ entry ∈ entries, entry.offset.toNat < size)
    (hascending : entries.Pairwise fun entry later => entry.offset < later.offset)
    (hk : k < entries.length) : startOf entries size k < startOf entries size (k + 1) := by
  rw [startOf_getElem hk]
  rcases Nat.lt_or_eq_of_le (Nat.succ_le_of_lt hk) with hnext | hnext
  · rw [startOf_getElem hnext]
    exact UInt32.lt_iff_toNat_lt.mp
      (List.pairwise_iff_getElem.mp hascending k (k + 1) hk hnext (Nat.lt_succ_self k))
  · rw [← Nat.succ_eq_add_one, hnext, startOf_length]
    exact hwithin _ (List.getElem_mem hk)

theorem startOf_mono (hwithin : ∀ entry ∈ entries, entry.offset.toNat < size)
    (hascending : entries.Pairwise fun entry later => entry.offset < later.offset) {j : Nat}
    (hjk : j ≤ k) (hk : k ≤ entries.length) : startOf entries size j ≤ startOf entries size k := by
  induction k, hjk using Nat.le_induction with
  | base => exact Nat.le_refl _
  | succ k _ ih =>
    exact (ih (Nat.le_of_succ_le hk)).trans (startOf_lt hwithin hascending hk).le

/-- Between the first start and the end every offset is between the starts of two neighbours. -/
theorem exists_startOf (hfirst : startOf entries size 0 = 0) {i : Nat} (hi : i < size) :
    ∃ k < entries.length, startOf entries size k ≤ i ∧ i < startOf entries size (k + 1) := by
  have hlast : i < startOf entries size entries.length := by rwa [startOf_length]
  generalize entries.length = n at hlast
  induction n with
  | zero => exact absurd (hfirst ▸ hlast) (Nat.not_lt_zero i)
  | succ n ih =>
    rcases Nat.lt_or_ge i (startOf entries size n) with hlt | hle
    · obtain ⟨k, hk, hbetween⟩ := ih hlt
      exact ⟨k, Nat.lt_succ_of_lt hk, hbetween⟩
    · exact ⟨n, Nat.lt_succ_self n, hle, hlast⟩

end Starts

namespace Emit

variable {L L' : Layout} {s : Statement} {statements rest : List Statement} {listing : Listing}

/-- A listing of statements that have locations: the code of each was made for where it stands, with
an instruction before it that drops the value of the one before, and its entry is there. -/
inductive Lists : List Statement → Listing → Layout → Prop
  | first {s : Statement} {location : Location} {offset : UInt32} {code : Array Op} {L : Layout}
    (hlocation : s.location = some location) (hoffset : offset.toNat = 0)
    (hcode : emit 0 s.expression ⟨.empty, #[]⟩ = .ok (code, L)) :
    Lists [s] ⟨code, #[⟨offset, location⟩]⟩ L
  | snoc {statements : List Statement} {s : Statement} {location : Location} {offset : UInt32}
    {listing : Listing} {code : Array Op} {L L' : Layout} (h : Lists statements listing L)
    (hlocation : s.location = some location) (hoffset : offset.toNat = listing.code.size + 1)
    (hcode : emit (listing.code.size + 1) s.expression L = .ok (code, L')) :
    Lists (statements ++ [s])
      ⟨listing.code.push .pop ++ code, listing.entries.push ⟨offset, location⟩⟩ L'

theorem Lists.nonempty (h : Lists statements listing L) : 0 < listing.code.size := by
  cases h with
  | first _ _ hcode => exact (emitted _ _ _ _ _ hcode).nonempty
  | snoc _ _ _ hcode =>
    have hpos := (emitted _ _ _ _ _ hcode).nonempty
    rw [Array.size_append]
    omega

/-- The location of a statement that has one is noted at the offset of its code. -/
theorem noted_eq_ok {f : Array SourceEntry → EmitM Listing} {entries : Array SourceEntry}
    {location : Location} {n : Nat} {r : Listing × Layout}
    (h : (do
      let offset ← target n
      let entries ← pure (entries.push ⟨offset, location⟩)
      f entries) L = .ok r) :
    ∃ offset : UInt32, offset.toNat = n ∧ f (entries.push ⟨offset, location⟩) L = .ok r := by
  obtain ⟨offset, L₁, htarget, hnoted⟩ := bind_eq_ok.mp h
  obtain ⟨hoffset, rfl⟩ := target_eq_ok htarget
  exact ⟨offset, hoffset, hnoted⟩

theorem emitStatements_lists (hlocated : ∀ s ∈ rest, s.location.isSome)
    (h : Lists statements listing L) {listing' : Listing}
    (hemit : emitStatements listing rest L = .ok (listing', L')) :
    Lists (statements ++ rest) listing' L' := by
  induction rest generalizing statements listing L with
  | nil =>
    cases hemit
    rwa [List.append_nil]
  | cons s rest ih =>
    obtain ⟨hs, hrest⟩ := List.forall_mem_cons.mp hlocated
    obtain ⟨location, hlocation⟩ := Option.isSome_iff_exists.mp hs
    have hnonempty : listing.code.isEmpty = false := by
      simpa [Array.isEmpty_iff_size_eq_zero] using Nat.ne_of_gt h.nonempty
    rw [emitStatements] at hemit
    simp only [hnonempty, Bool.false_eq_true, if_false, hlocation, Array.size_push] at hemit
    obtain ⟨offset, hoffset, hemit⟩ := noted_eq_ok hemit
    obtain ⟨code, L₁, hcode, hemit⟩ := bind_eq_ok.mp hemit
    rw [List.append_cons]
    exact ih hrest (.snoc h hlocation hoffset hcode) hemit

/-- What is emitted for a script lists its statements. -/
theorem emitScript_lists {script : Script} (hne : script.statements ≠ [])
    (hlocated : ∀ s ∈ script.statements, s.location.isSome)
    (hemit : emitScript script ⟨.empty, #[]⟩ = .ok (listing, L)) :
    Lists script.statements listing L := by
  unfold emitScript at hemit
  cases hstatements : script.statements with
  | nil => exact absurd hstatements hne
  | cons s rest =>
    rw [hstatements] at hlocated
    obtain ⟨hs, hrest⟩ := List.forall_mem_cons.mp hlocated
    obtain ⟨location, hlocation⟩ := Option.isSome_iff_exists.mp hs
    simp only [hstatements, List.isEmpty_cons, Bool.false_eq_true, if_false] at hemit
    rw [emitStatements] at hemit
    simp only [Array.isEmpty_empty, if_true, hlocation] at hemit
    obtain ⟨offset, hoffset, hemit⟩ := noted_eq_ok hemit
    obtain ⟨code, L₁, hcode, hemit⟩ := bind_eq_ok.mp hemit
    rw [Array.empty_append] at hemit
    exact emitStatements_lists hrest (.first hlocation hoffset hcode) hemit

/-! ### What a listing says -/

namespace Lists

/-- The entries have the locations of the statements. -/
theorem locations (h : Lists statements listing L) :
    listing.entries.toList.map (fun entry => some entry.location) =
      statements.map Statement.location := by
  induction h with
  | first hlocation => simp [hlocation]
  | snoc _ hlocation _ _ ih => simp [ih, hlocation]

theorem length (h : Lists statements listing L) :
    listing.entries.toList.length = statements.length := by
  simpa using congrArg List.length h.locations

theorem ascending (h : Lists statements listing L) :
    (∀ entry ∈ listing.entries.toList, entry.offset.toNat < listing.code.size) ∧
      listing.entries.toList.Pairwise fun entry later => entry.offset < later.offset := by
  induction h with
  | first _ hoffset hcode =>
    refine ⟨List.forall_mem_singleton.mpr ?_, List.pairwise_singleton _ _⟩
    rw [hoffset]
    exact (emitted _ _ _ _ _ hcode).nonempty
  | @snoc _ _ _ offset listing code _ _ h _ hoffset hcode ih =>
    obtain ⟨hwithin, hpairwise⟩ := ih
    have hpos := (emitted _ _ _ _ _ hcode).nonempty
    have hsize : (listing.code.push .pop ++ code).size = listing.code.size + 1 + code.size := by
      rw [Array.size_append, Array.size_push]
    rw [Array.toList_push]
    constructor
    · intro entry hentry
      rw [hsize]
      rcases List.mem_append.mp hentry with hentry | hentry
      · have hlt := hwithin entry hentry
        omega
      · rw [List.mem_singleton.mp hentry]
        dsimp only
        omega
    · refine List.pairwise_append.mpr ⟨hpairwise, List.pairwise_singleton _ _, ?_⟩
      intro entry hentry later hlater
      have hlt := hwithin entry hentry
      rw [List.mem_singleton.mp hlater, UInt32.lt_iff_toNat_lt, hoffset]
      omega

theorem ne_nil (h : Lists statements listing L) : statements ≠ [] := by
  cases h <;> simp

theorem startOf_zero (h : Lists statements listing L) :
    startOf listing.entries.toList listing.code.size 0 = 0 := by
  induction h with
  | first _ hoffset => exact hoffset
  | snoc h _ _ _ ih =>
    rw [Array.toList_push, startOf_append_left (h.length ▸ List.length_pos_iff.mpr h.ne_nil), ih]

end Lists

end Emit

/-! ### What instructions are made for -/

/-- Between the starts of two statements are the instructions made for the first, and behind these
one that drops its value. The layouts are those before each statement. -/
structure Pieces (statements : List Statement) (entries : List SourceEntry) (code : Array Op)
    (layouts : Nat → Emit.Layout) : Prop where
  first : layouts 0 = ⟨.empty, #[]⟩
  piece (k : Nat) (hk : k < statements.length) : ∃ piece : Array Op,
    Emit.emit (startOf entries code.size k) statements[k].expression (layouts k) =
      .ok (piece, layouts (k + 1)) ∧
    code.extract (startOf entries code.size k) (startOf entries code.size (k + 1)) =
      if k + 1 = statements.length then piece else piece.push .pop

section Extracts

variable {code piece : Array Op} {op : Op} {i j : Nat}

theorem extract_before (hj : j ≤ code.size) :
    (code.push op ++ piece).extract i j = code.extract i j := by
  grind

theorem extract_through (hi : i ≤ code.size) :
    (code.push op ++ piece).extract i (code.size + 1) = (code.extract i code.size).push op := by
  grind

theorem extract_behind :
    (code.push op ++ piece).extract (code.size + 1) (code.size + 1 + piece.size) = piece := by
  grind

end Extracts

/-- One more statement: the code of the last one so far ends where the new instruction is. -/
theorem Pieces.snoc {statements : List Statement} {entries : List SourceEntry}
    {code piece : Array Op} {layouts : Nat → Emit.Layout} {s : Statement} {entry : SourceEntry}
    {L' : Emit.Layout} (h : Pieces statements entries code layouts)
    (hlength : entries.length = statements.length)
    (hwithin : ∀ entry ∈ entries, entry.offset.toNat < code.size)
    (hentry : entry.offset.toNat = code.size + 1)
    (hpiece : Emit.emit (code.size + 1) s.expression (layouts statements.length) =
      .ok (piece, L')) :
    Pieces (statements ++ [s]) (entries ++ [entry]) (code.push .pop ++ piece)
      (Function.update layouts (statements.length + 1) L') := by
  have hbefore (k : Nat) (hk : k ≤ statements.length) :
      Function.update layouts (statements.length + 1) L' k = layouts k :=
    Function.update_of_ne (by omega) _ _
  have hstart (k : Nat) (hk : k < statements.length) :
      startOf (entries ++ [entry]) (code.push .pop ++ piece).size k = startOf entries code.size k :=
    startOf_append_left (hlength ▸ hk)
  have hlast : startOf (entries ++ [entry]) (code.push .pop ++ piece).size statements.length =
      code.size + 1 := by
    rw [← hlength, startOf, List.getElem?_concat_length]
    exact hentry
  refine ⟨(hbefore 0 (Nat.zero_le _)).trans h.first, fun k hk => ?_⟩
  rw [List.length_append, List.length_singleton] at hk
  rw [hbefore k (by omega)]
  rcases Nat.lt_or_eq_of_le (Nat.le_of_lt_succ hk) with hk | rfl
  · obtain ⟨old, hemit, hextract⟩ := h.piece k hk
    rw [hstart k hk, hbefore (k + 1) hk, List.getElem_append_left hk]
    refine ⟨old, hemit, ?_⟩
    rw [if_neg (by simpa using hk.ne)]
    rcases Nat.lt_or_eq_of_le (Nat.succ_le_of_lt hk) with hnext | hnext
    · rw [hstart (k + 1) hnext, extract_before (startOf_le hwithin _), hextract, if_neg hnext.ne]
    · rw [if_pos hnext, ← Nat.succ_eq_add_one, hnext, ← hlength, startOf_length] at hextract
      rw [← Nat.succ_eq_add_one, hnext, hlast, extract_through (startOf_le hwithin _), hextract]
  · have hlength' : (entries ++ [entry]).length = statements.length + 1 := by simp [hlength]
    have hend : startOf (entries ++ [entry]) (code.push .pop ++ piece).size
        (statements.length + 1) = code.size + 1 + piece.size := by
      rw [← hlength', startOf_length, Array.size_append, Array.size_push]
    rw [hlast, hend, Function.update_self, List.getElem_concat_length rfl, extract_behind]
    exact ⟨piece, hpiece, (if_pos (by simp)).symm⟩

namespace Emit

/-- The code of a listing is the code of its statements. -/
theorem Lists.pieces {statements : List Statement} {listing : Listing} {L : Layout}
    (h : Lists statements listing L) : ∃ layouts : Nat → Layout,
      Pieces statements listing.entries.toList listing.code layouts ∧
        layouts statements.length = L := by
  induction h with
  | @first s location offset code L _ hoffset hcode =>
    refine ⟨fun k => if k = 0 then ⟨.empty, #[]⟩ else L, ⟨rfl, fun k hk => ⟨code, ?_⟩⟩, rfl⟩
    obtain rfl : k = 0 := Nat.lt_one_iff.mp hk
    have hstart : startOf [⟨offset, location⟩] code.size 0 = 0 := hoffset
    rw [hstart]
    exact ⟨hcode, Array.extract_size⟩
  | snoc h _ hoffset hcode ih =>
    obtain ⟨layouts, hpieces, rfl⟩ := ih
    rw [Array.toList_push, List.length_append]
    exact ⟨_, hpieces.snoc h.length h.ascending.1 hoffset hcode, Function.update_self ..⟩

end Emit

/-! ### The lookup -/

namespace Program

variable {p : Program} {i k : Nat}

/-- Where the instructions start that were made for a statement, and beyond the last statement where
they end. -/
def start (p : Program) (k : Nat) : Nat :=
  startOf p.sourceMap p.code.size k

/-- The lookup finds the entry that an offset is behind, and the next entry not yet. -/
theorem locationAt?_eq (hwithin : ∀ entry ∈ p.sourceMap, entry.offset.toNat < p.code.size)
    (hascending : p.sourceMap.Pairwise fun entry later => entry.offset < later.offset)
    (hk : k < p.sourceMap.length) (hstart : p.start k ≤ i) (hnext : i < p.start (k + 1)) :
    p.locationAt? i = some p.sourceMap[k].location := by
  have hbefore : ∀ entry ∈ p.sourceMap.take (k + 1), decide (entry.offset.toNat ≤ i) = true := by
    intro entry hentry
    obtain ⟨j, hj, rfl⟩ := List.mem_take_iff_getElem.mp hentry
    have hle := startOf_mono (j := j) hwithin hascending (show j ≤ k by omega) hk.le
    rw [startOf_getElem (by omega)] at hle
    exact decide_eq_true (hle.trans hstart)
  have hbehind : (p.sourceMap.drop (k + 1)).takeWhile
      (fun entry => decide (entry.offset.toNat ≤ i)) = [] := by
    by_cases hlast : k + 1 < p.sourceMap.length
    · rw [start, startOf_getElem hlast] at hnext
      rw [List.drop_eq_getElem_cons hlast,
        List.takeWhile_cons_of_neg (by simpa using hnext)]
    · rw [List.drop_eq_nil_of_le (Nat.le_of_not_lt hlast), List.takeWhile_nil]
  have htake : p.sourceMap.takeWhile (fun entry => decide (entry.offset.toNat ≤ i)) =
      p.sourceMap.take (k + 1) := by
    conv_lhs => rw [← List.take_append_drop (k + 1) p.sourceMap]
    rw [List.takeWhile_append_of_pos hbefore, hbehind, List.append_nil]
  rw [locationAt?, htake, List.getLast?_take, if_neg (Nat.succ_ne_zero k), Nat.add_sub_cancel,
    List.getElem?_eq_getElem hk]
  rfl

/-- The source map of a program tells which of these statements its instructions were made for. -/
structure Maps (p : Program) (statements : List Statement) : Prop where
  /-- One entry for each statement, in their order. -/
  locations : p.sourceMap.map (fun entry => some entry.location) =
    statements.map Statement.location
  ascending : p.sourceMap.Pairwise fun entry later => entry.offset < later.offset
  within : ∀ entry ∈ p.sourceMap, entry.offset.toNat < p.code.size
  /-- Every instruction is among those of one statement. -/
  covered : ∀ i < p.code.size,
    ∃! k, k < statements.length ∧ p.start k ≤ i ∧ i < p.start (k + 1)
  located (k : Nat) (hk : k < statements.length) (i : Nat) : p.start k ≤ i → i < p.start (k + 1) →
    p.locationAt? i = statements[k].location
  /-- The instructions of a statement are those made for it. -/
  pieces : ∃ layouts, Pieces statements p.sourceMap p.code layouts ∧
    (layouts statements.length).pool = p.constants

end Program

/-! ### Compiled scripts -/

section Compiled

variable {ι : Type} {level : UInt8} {registry : Registry ι} {script : Script}
  {declared : Permissions} {program : Program}

/-- Statements read from a text have locations. -/
theorem location_isSome_of_parse {name source : String} (h : parse name source = .ok script) :
    ∀ s ∈ script.statements, s.location.isSome := by
  rw [parse] at h
  obtain ⟨ts, htokens, h⟩ := bind_eq_ok_iff.mp h
  obtain ⟨statements, hread, h⟩ := bind_eq_ok_iff.mp h
  cases h
  obtain ⟨_, htiled⟩ := Lexer.tiled_of_tokenize htokens
  have hlaid := Parser.readStatements_laidOut htiled (Parser.descentAllowance ts.length) name
  rw [hread] at hlaid
  obtain ⟨spans, hlaid⟩ := hlaid
  have hboth : List.Forall₂ (fun s span => s.location.isSome = true ∧
      Statement.Covers name source.toList s span) statements spans :=
    hlaid.covers.imp fun s span h => ⟨Option.isSome_iff_exists.mpr ⟨_, h.location⟩, h⟩
  exact ((List.forall₂_and_left statements spans).mp hboth).1

theorem statements_atLevel (level : UInt8) (script : Script) :
    (if level = 0 then script else script.fold).statements =
      script.statements.map (·.atLevel level) := by
  unfold Statement.atLevel
  split_ifs
  · exact (List.map_id' _).symm
  · rfl

/-- The code, constants and source map of a compiled script are those of a listing. -/
theorem lists_of_compileScript (hne : script.statements ≠ [])
    (hlocated : ∀ s ∈ script.statements, s.location.isSome)
    (h : compileScript level registry script declared = .ok program) :
    ∃ listing L, Emit.Lists (script.statements.map (·.atLevel level)) listing L ∧
      program.code = listing.code ∧ program.sourceMap = listing.entries.toList ∧
        program.constants = L.pool := by
  obtain ⟨-, -, listing, L, hemit, rfl⟩ := compileScript_eq_ok_iff.mp h
  refine ⟨listing, L, ?_, rfl, rfl, rfl⟩
  rw [← statements_atLevel]
  refine Emit.emitScript_lists ?_ ?_ hemit
  · rwa [statements_atLevel, ne_eq, List.map_eq_nil_iff]
  · rw [statements_atLevel]
    refine List.forall_mem_map.mpr fun s hs => ?_
    rw [Statement.location_atLevel]
    exact hlocated s hs

/-- The statements of a listing are mapped by a program that consists of it. -/
theorem Program.maps_of_lists {statements : List Statement} {listing : Emit.Listing}
    {L : Emit.Layout} (h : Emit.Lists statements listing L) (hcode : program.code = listing.code)
    (hmap : program.sourceMap = listing.entries.toList) (hconstants : program.constants = L.pool) :
    program.Maps statements := by
  have hlocations := hmap ▸ h.locations
  have hlength := hmap ▸ h.length
  obtain ⟨hwithin, hascending⟩ := h.ascending
  rw [← hmap, ← hcode] at hwithin
  rw [← hmap] at hascending
  refine ⟨hlocations, hascending, hwithin, fun i hi => ?_, fun k hk i hstart hnext => ?_, ?_⟩
  · have hfirst := h.startOf_zero
    rw [← hmap, ← hcode] at hfirst
    obtain ⟨k, hk, hstart, hnext⟩ := exists_startOf hfirst hi
    refine ⟨k, ⟨hlength ▸ hk, hstart, hnext⟩, fun j hj => ?_⟩
    obtain ⟨hj, hstart', hnext'⟩ := hj
    by_contra hne
    -- the spans of two statements do not meet
    rcases Nat.lt_or_gt_of_ne hne with hlt | hlt
    · have hle := startOf_mono hwithin hascending (show j + 1 ≤ k from hlt) hk.le
      exact absurd (hnext'.trans_le (hle.trans hstart)) (Nat.lt_irrefl i)
    · have hle := startOf_mono hwithin hascending (show k + 1 ≤ j from hlt) (hlength ▸ hj.le)
      exact absurd (hnext.trans_le (hle.trans hstart')) (Nat.lt_irrefl i)
  · have hk' : k < program.sourceMap.length := hlength ▸ hk
    rw [Program.locationAt?_eq hwithin hascending hk' hstart hnext]
    have hentry := congrArg (fun locations => locations[k]?) hlocations
    simpa [hk, hk'] using hentry
  · obtain ⟨layouts, hpieces, hlast⟩ := h.pieces
    rw [hmap, hcode, hconstants]
    exact ⟨layouts, hpieces, congrArg Emit.Layout.pool hlast⟩

/-- A program that was compiled from a text maps its statements, at every level. -/
theorem compile_maps {name source : String} (hparse : parse name source = .ok script)
    (hne : script.statements ≠ [])
    (h : compile level registry script declared = .ok program) :
    program.Maps (script.statements.map (·.atLevel level)) := by
  obtain ⟨listing, L, hlists, hcode, hmap, hconstants⟩ := lists_of_compileScript hne
    (location_isSome_of_parse hparse) (compile_eq_ok_iff.mp h)
  exact Program.maps_of_lists hlists hcode hmap hconstants

/-- Folding has shortened the first two of these statements to a constant and a block. -/
theorem compile_maps_folded : ∃ script program,
    parse "script" "let fee = 2 * 3\nif 1 < 2 \x7b fee \x7d else \x7b 0 \x7d\nfee + 1" =
      .ok script ∧
    script.statements ≠ [] ∧
    compile 1 (.empty : Registry Empty) script .none = .ok program ∧
    program.sourceMap.map (·.offset) = [0, 3, 7] ∧ program.code.size = 10 ∧
    program.Maps (script.statements.map (·.atLevel 1)) := by
  have hcheck : (parse "script"
      "let fee = 2 * 3\nif 1 < 2 \x7b fee \x7d else \x7b 0 \x7d\nfee + 1").toOption.any
      (fun script => !script.statements.isEmpty &&
        (compile 1 (.empty : Registry Empty) script .none).toOption.any fun program =>
          program.sourceMap.map (·.offset) = [0, 3, 7] && program.code.size = 10) = true := by
    decide +kernel
  obtain ⟨script, hparse, hcheck⟩ := exists_ok_of_check hcheck
  obtain ⟨hne, hcheck⟩ := Bool.and_eq_true_iff.mp hcheck
  obtain ⟨program, hcompile, hcheck⟩ := exists_ok_of_check hcheck
  obtain ⟨hoffsets, hsize⟩ := Bool.and_eq_true_iff.mp hcheck
  have hne : script.statements ≠ [] := by simpa using hne
  exact ⟨script, program, hparse, hne, hcompile, of_decide_eq_true hoffsets,
    of_decide_eq_true hsize, compile_maps hparse hne hcompile⟩

end Compiled

end Covenant
