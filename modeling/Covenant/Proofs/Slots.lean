import Covenant.Proofs.Code
import Covenant.Proofs.Evaluation
import Covenant.Proofs.Placement

/-!
# Names and slots

Where evaluation binds names to values, execution keeps the values in numbered slots that the names
were resolved to. Both hold the same values throughout (`ScopesMatch`): each open frame of the
machine has in the slot of a name what the frame of the evaluation binds the name to, and the names
without a slot are the global ones.

## Main definitions

* `FrameMatches`, `FramesMatch` : slots, bindings and stored values of open frames belong together.
* `ScopesMatch` : scopes belong together with the frames and globals of a machine.
* `Scopes.Widens` : the slots that the code behind a block item sees.

## Main results

* `ScopesMatch.get_local`, `ScopesMatch.assign_local`, `ScopesMatch.define_fresh` and their
  companions : names are read and written alike.
* `CodeOf.scopes_eq` : the code behind an expression sees the same slots.
-/

namespace Covenant

/-! ### One frame -/

theorem Frame.getElem?_insert {α : Type} (frame : Frame α) (name other : String) (a : α) :
    (frame.insert name a)[other]? = if name = other then some a else frame[other]? := by
  simp only [Std.TreeMap.getElem?_insert, Std.LawfulEqOrd.compare_eq_iff_eq]

theorem Frame.contains_eq {α : Type} (frame : Frame α) (name : String) :
    frame.contains name = frame[name]?.isSome :=
  Std.TreeMap.contains_eq_isSome_getElem?

theorem Frame.size_insert_of_none {α : Type} {frame : Frame α} {name : String}
    (h : frame[name]? = none) (a : α) : (frame.insert name a).size = frame.size + 1 := by
  have hcontains : ¬ frame.contains name = true := by
    rw [Frame.contains_eq, h]
    exact Bool.false_ne_true
  rw [Std.TreeMap.size_insert]
  exact if_neg hcontains

/-- In a frame of a given size, the slots of names hold what the names are bound to. Different
names have different slots, and those in use come before the free ones. -/
structure FrameMatches (capacity : Nat) (slots : Frame UInt16) (names : Frame Value)
    (values : Array Value) : Prop where
  size : values.size = capacity
  room : slots.size ≤ capacity
  used {name : String} {slot : UInt16} : slots[name]? = some slot → slot.toNat < slots.size
  distinct {name name' : String} {slot : UInt16} : slots[name]? = some slot →
    slots[name']? = some slot → name = name'
  value (name : String) : names[name]? = slots[name]?.bind fun slot => values[slot.toNat]?

namespace FrameMatches

variable {capacity : Nat} {slots : Frame UInt16} {names : Frame Value} {values : Array Value}

theorem fresh (capacity : Nat) :
    FrameMatches capacity ∅ ∅ (Array.replicate capacity .null) where
  size := Array.size_replicate
  room := by simp
  used h := by simp at h
  distinct h := by simp at h
  value name := by simp

/-- A name has a slot if it is bound, and its value is there. -/
theorem value_of_slot (h : FrameMatches capacity slots names values) {name : String} {slot : UInt16}
    (hslot : slots[name]? = some slot) :
    ∃ v, values[slot.toNat]? = some v ∧ names[name]? = some v := by
  have hlt : slot.toNat < values.size := by
    have hused := h.used hslot
    have hroom := h.room
    have hsize := h.size
    omega
  refine ⟨values[slot.toNat], Array.getElem?_eq_getElem hlt, ?_⟩
  rw [h.value name, hslot, Option.bind_some, Array.getElem?_eq_getElem hlt]

theorem unbound_of_no_slot (h : FrameMatches capacity slots names values) {name : String}
    (hslot : slots[name]? = none) : names[name]? = none := by
  rw [h.value name, hslot, Option.bind_none]

/-- A new value for a name is written to its slot. -/
theorem set (h : FrameMatches capacity slots names values) {name : String} {slot : UInt16}
    (hslot : slots[name]? = some slot) (v : Value) :
    FrameMatches capacity slots (names.insert name v) (values.setIfInBounds slot.toNat v) where
  size := by rw [Array.size_setIfInBounds, h.size]
  room := h.room
  used := h.used
  distinct := h.distinct
  value other := by
    have hused := h.used hslot
    have hroom := h.room
    have hsize := h.size
    rw [Frame.getElem?_insert]
    by_cases heq : name = other
    · subst heq
      have hlt : slot.toNat < values.size := by omega
      simp [hslot, hlt]
    · rw [if_neg heq, h.value other]
      cases hother : slots[other]? with
      | none => rfl
      | some slot' =>
        have hslots : slot.toNat ≠ slot'.toNat := fun hc =>
          heq (h.distinct hslot (UInt16.toNat_inj.mp hc ▸ hother))
        simp only [Option.bind_some, Array.getElem?_setIfInBounds_ne hslots]

/-- A name that is not bound yet gets the first free slot. -/
theorem define (h : FrameMatches capacity slots names values) {name : String} {slot : UInt16}
    (hname : slots[name]? = none) (hslot : slot.toNat = slots.size) (hroom : slots.size < capacity)
    (v : Value) :
    FrameMatches capacity (slots.insert name slot) (names.insert name v)
      (values.setIfInBounds slot.toNat v) := by
  have hsize := Frame.size_insert_of_none hname slot
  have hbefore {other : String} {slot' : UInt16} (hother : slots[other]? = some slot') :
      slot' ≠ slot := by
    rintro rfl
    exact absurd (h.used hother) (by omega)
  refine ⟨by rw [Array.size_setIfInBounds, h.size], by omega, ?_, ?_, ?_⟩
  · intro other slot' hother
    rw [Frame.getElem?_insert] at hother
    split at hother
    · cases hother
      omega
    · have hused := h.used hother
      omega
  · intro other other' slot' hother hother'
    rw [Frame.getElem?_insert] at hother hother'
    split at hother <;> split at hother'
    · simp_all
    · cases hother
      exact absurd rfl (hbefore hother')
    · cases hother'
      exact absurd rfl (hbefore hother)
    · exact h.distinct hother hother'
  · intro other
    rw [Frame.getElem?_insert, Frame.getElem?_insert]
    split
    · have hlt : slot.toNat < values.size := by
        have := h.size
        omega
      simp [hlt]
    · rw [h.value other]
      cases hother : slots[other]? with
      | none => rfl
      | some slot' =>
        have hslots : slot.toNat ≠ slot'.toNat := fun hc =>
          hbefore hother (UInt16.toNat_inj.mp hc.symm)
        simp only [Option.bind_some, Array.getElem?_setIfInBounds_ne hslots]

end FrameMatches

/-! ### Open frames -/

/-- The open frames match one by one, innermost first. -/
inductive FramesMatch :
    List Nat → List (Frame UInt16) → List (Frame Value) → List (Array Value) → Prop
  | nil : FramesMatch [] [] [] []
  | cons {capacity : Nat} {capacities : List Nat} {slots : Frame UInt16}
      {inner : List (Frame UInt16)} {names : Frame Value} {scopes : List (Frame Value)}
      {values : Array Value} {frames : List (Array Value)}
      (head : FrameMatches capacity slots names values)
      (tail : FramesMatch capacities inner scopes frames) :
      FramesMatch (capacity :: capacities) (slots :: inner) (names :: scopes) (values :: frames)

namespace FramesMatch

variable {capacities : List Nat} {inner : List (Frame UInt16)} {scopes : List (Frame Value)}
  {frames : List (Array Value)}

theorem length_inner (h : FramesMatch capacities inner scopes frames) :
    inner.length = capacities.length := by
  induction h with
  | nil => rfl
  | cons _ _ ih => simp only [List.length_cons, ih]

theorem length_scopes (h : FramesMatch capacities inner scopes frames) :
    scopes.length = capacities.length := by
  induction h with
  | nil => rfl
  | cons _ _ ih => simp only [List.length_cons, ih]

theorem length_frames (h : FramesMatch capacities inner scopes frames) :
    frames.length = capacities.length := by
  induction h with
  | nil => rfl
  | cons _ _ ih => simp only [List.length_cons, ih]

theorem drop (h : FramesMatch capacities inner scopes frames) (n : Nat) :
    FramesMatch (capacities.drop n) (inner.drop n) (scopes.drop n) (frames.drop n) := by
  induction h generalizing n with
  | nil => simpa using .nil
  | cons head tail ih =>
    cases n with
    | zero => exact .cons head tail
    | succ n => exact ih n

/-- A name without a slot is not bound in any open frame. -/
theorem lookup_none (h : FramesMatch capacities inner scopes frames) {name : String} {hops : Nat}
    (hname : Scopes.lookupIn? name inner hops = none) :
    Scopes.lookupIn? name scopes hops = none := by
  induction h generalizing hops with
  | nil => rfl
  | @cons _ _ slots _ _ _ _ _ head _ ih =>
    cases hslot : slots[name]? with
    | some slot => simp [Scopes.lookupIn?, hslot] at hname
    | none =>
      simp only [Scopes.lookupIn?, hslot] at hname
      simp only [Scopes.lookupIn?, head.unbound_of_no_slot hslot]
      exact ih hname

/-- A name with a slot is bound, as many frames outward, to the value there. -/
theorem lookup_some (h : FramesMatch capacities inner scopes frames) {name : String}
    {hops depth : Nat} {slot : UInt16}
    (hname : Scopes.lookupIn? name inner hops = some (depth, slot)) :
    ∃ i values v, depth = hops + i ∧ frames[i]? = some values ∧
      values[slot.toNat]? = some v ∧ Scopes.lookupIn? name scopes hops = some (depth, v) := by
  induction h generalizing hops with
  | nil => cases hname
  | @cons _ _ slots _ _ _ _ _ head _ ih =>
    cases hslot : slots[name]? with
    | some slot' =>
      simp only [Scopes.lookupIn?, hslot, Option.some.injEq, Prod.mk.injEq] at hname
      obtain ⟨rfl, rfl⟩ := hname
      obtain ⟨v, hv, hbound⟩ := head.value_of_slot hslot
      exact ⟨0, _, v, rfl, rfl, hv, by simp only [Scopes.lookupIn?, hbound]⟩
    | none =>
      simp only [Scopes.lookupIn?, hslot] at hname
      obtain ⟨i, values, v, hdepth, hvalues, hv, hbound⟩ := ih hname
      refine ⟨i + 1, values, v, by omega, hvalues, hv, ?_⟩
      simp only [Scopes.lookupIn?, head.unbound_of_no_slot hslot, hbound]

theorem set_none (h : FramesMatch capacities inner scopes frames) {name : String} {hops : Nat}
    (hname : Scopes.lookupIn? name inner hops = none) (v : Value) :
    Scopes.setIn? name v scopes = none := by
  induction h generalizing hops with
  | nil => rfl
  | @cons _ _ slots _ _ _ _ _ head _ ih =>
    cases hslot : slots[name]? with
    | some slot => simp [Scopes.lookupIn?, hslot] at hname
    | none =>
      simp only [Scopes.lookupIn?, hslot] at hname
      simp [Scopes.setIn?, Frame.contains_eq, head.unbound_of_no_slot hslot, ih hname]

/-- A name with a slot gets a new value there and where it is bound. -/
theorem set_some (h : FramesMatch capacities inner scopes frames) {name : String}
    {hops depth : Nat} {slot : UInt16}
    (hname : Scopes.lookupIn? name inner hops = some (depth, slot)) (v : Value) :
    ∃ i values scopes', depth = hops + i ∧ frames[i]? = some values ∧
      slot.toNat < values.size ∧ Scopes.setIn? name v scopes = some scopes' ∧
      FramesMatch capacities inner scopes'
        (frames.modify i fun values => values.setIfInBounds slot.toNat v) := by
  induction h generalizing hops with
  | nil => cases hname
  | @cons _ _ slots _ names _ values _ head tail ih =>
    cases hslot : slots[name]? with
    | some slot' =>
      simp only [Scopes.lookupIn?, hslot, Option.some.injEq, Prod.mk.injEq] at hname
      obtain ⟨rfl, rfl⟩ := hname
      obtain ⟨old, hold, hbound⟩ := head.value_of_slot hslot
      refine ⟨0, values, _, rfl, rfl, (Array.getElem?_eq_some_iff.mp hold).1, ?_,
        .cons (head.set hslot v) tail⟩
      simp only [Scopes.setIn?, Frame.contains_eq, hbound, Option.isSome_some, if_true]
    | none =>
      simp only [Scopes.lookupIn?, hslot] at hname
      obtain ⟨i, values', scopes', hdepth, hvalues, hlt, hset, hmatch⟩ := ih hname
      refine ⟨i + 1, values', names :: scopes', by omega, hvalues, hlt, ?_, .cons head hmatch⟩
      simp [Scopes.setIn?, Frame.contains_eq, head.unbound_of_no_slot hslot, hset]

end FramesMatch

/-! ### Scopes -/

/-- The scopes of an evaluation and the frames and globals of a machine hold the same values.
Global names have no slots. -/
structure ScopesMatch (capacities : List Nat) (S : Scopes UInt16) (scopes : Scopes Value)
    (frames : List (Array Value)) (globals : Frame Value) : Prop where
  inner : FramesMatch capacities S.inner scopes.inner frames
  globals : globals = scopes.globals
  slotless : S.globals = ∅

namespace ScopesMatch

variable {capacities : List Nat} {S : Scopes UInt16} {scopes : Scopes Value}
  {frames : List (Array Value)} {globals : Frame Value}

theorem lookup_eq (h : ScopesMatch capacities S scopes frames globals) (name : String) :
    S.lookup? name = Scopes.lookupIn? name S.inner 0 := by
  unfold Scopes.lookup?
  cases Scopes.lookupIn? name S.inner 0 with
  | some found => rfl
  | none => simp [h.slotless]

theorem isGlobal_eq (h : ScopesMatch capacities S scopes frames globals) :
    scopes.isGlobal = S.isGlobal := by
  have hlength := h.inner.length_scopes.trans h.inner.length_inner.symm
  unfold Scopes.isGlobal
  rw [Bool.eq_iff_iff, List.isEmpty_iff_length_eq_zero, List.isEmpty_iff_length_eq_zero, hlength]

/-- The value of a name with a slot is in it. -/
theorem get_local (h : ScopesMatch capacities S scopes frames globals) {name : String}
    {depth : Nat} {slot : UInt16} (hname : S.lookup? name = some (depth, slot)) :
    ∃ values v, frames[depth]? = some values ∧ values[slot.toNat]? = some v ∧
      scopes.get name = .ok v := by
  rw [h.lookup_eq] at hname
  obtain ⟨i, values, v, hdepth, hvalues, hv, hbound⟩ := h.inner.lookup_some hname
  obtain rfl : depth = i := by omega
  exact ⟨values, v, hvalues, hv, by simp only [Scopes.get, Scopes.lookup?, hbound]⟩

/-- The value of a name without a slot is that of the global name. -/
theorem get_global (h : ScopesMatch capacities S scopes frames globals) {name : String}
    (hname : S.lookup? name = none) :
    scopes.get name =
      match globals[name]? with
      | some v => .ok v
      | none => .error (.notDefined name) := by
  rw [h.lookup_eq] at hname
  simp only [Scopes.get, Scopes.lookup?, h.inner.lookup_none hname, h.globals]
  cases scopes.globals[name]? <;> rfl

/-- A new value for a name with a slot goes there. -/
theorem assign_local (h : ScopesMatch capacities S scopes frames globals) {name : String}
    {depth : Nat} {slot : UInt16} (hname : S.lookup? name = some (depth, slot)) (v : Value) :
    ∃ values scopes', frames[depth]? = some values ∧ slot.toNat < values.size ∧
      scopes.assign name v = .ok scopes' ∧
      ScopesMatch capacities S scopes'
        (frames.modify depth fun values => values.setIfInBounds slot.toNat v) globals := by
  rw [h.lookup_eq] at hname
  obtain ⟨i, values, inner', hdepth, hvalues, hlt, hset, hmatch⟩ := h.inner.set_some hname v
  obtain ⟨-, -, old, -, -, -, hbound⟩ := h.inner.lookup_some hname
  obtain rfl : depth = i := by omega
  refine ⟨values, { scopes with inner := inner' }, hvalues, hlt, ?_,
    ⟨hmatch, h.globals, h.slotless⟩⟩
  simp [Scopes.assign, Scopes.lookup?, hbound, Scopes.set, hset]

/-- Inside a block a name without a slot must be bound globally to get a new value. -/
theorem assign_bound (h : ScopesMatch capacities S scopes frames globals) {name : String}
    (hname : S.lookup? name = none) (hinner : S.isGlobal = false) (v : Value) :
    scopes.assign name v =
      if globals.contains name then
        .ok { scopes with globals := scopes.globals.insert name v }
      else .error (.notDefined name) := by
  rw [h.lookup_eq] at hname
  simp only [Scopes.assign, h.isGlobal_eq, hinner, Bool.false_and, Bool.false_eq_true, if_false,
    Scopes.set, h.inner.set_none hname, h.globals]

theorem inner_eq_nil (h : ScopesMatch capacities S scopes frames globals)
    (hglobal : S.isGlobal = true) : scopes.inner = [] :=
  List.isEmpty_iff.mp (h.isGlobal_eq.trans hglobal)

/-- At the top level every name may be given a value. -/
theorem assign_global (h : ScopesMatch capacities S scopes frames globals) (name : String)
    (hglobal : S.isGlobal = true) (v : Value) :
    scopes.assign name v = .ok { scopes with globals := scopes.globals.insert name v } := by
  have hempty := h.inner_eq_nil hglobal
  obtain ⟨inner, names⟩ := scopes
  obtain rfl : inner = [] := hempty
  simp only [Scopes.assign, Scopes.isGlobal, Scopes.lookup?, Scopes.lookupIn?, Scopes.set,
    Scopes.setIn?, Scopes.define, Frame.contains_eq]
  cases names[name]? <;> simp

theorem define_global (h : ScopesMatch capacities S scopes frames globals) (name : String)
    (hglobal : S.isGlobal = true) (v : Value) :
    scopes.define name v = { scopes with globals := scopes.globals.insert name v } := by
  have hempty := h.inner_eq_nil hglobal
  obtain ⟨inner, names⟩ := scopes
  obtain rfl : inner = [] := hempty
  rfl

theorem setGlobal (h : ScopesMatch capacities S scopes frames globals) (name : String) (v : Value) :
    ScopesMatch capacities S { scopes with globals := scopes.globals.insert name v } frames
      (globals.insert name v) :=
  ⟨h.inner, by rw [h.globals], h.slotless⟩

/-- A declaration of a name that has a slot in the innermost frame goes there. -/
theorem define_again (h : ScopesMatch capacities S scopes frames globals) {name : String}
    {slot : UInt16} (hinner : S.isGlobal = false) (hname : S.innermost[name]? = some slot)
    (v : Value) :
    ∃ values, frames[0]? = some values ∧ slot.toNat < values.size ∧
      ScopesMatch capacities S (scopes.define name v)
        (frames.modify 0 fun values => values.setIfInBounds slot.toNat v) globals := by
  obtain ⟨hmatch, hglobals, hslotless⟩ := h
  obtain ⟨inner, topSlots⟩ := S
  obtain ⟨scopesInner, topNames⟩ := scopes
  cases hmatch with
  | nil => cases hinner
  | cons head tail =>
    have hslot := hname
    obtain ⟨old, hold, -⟩ := head.value_of_slot hslot
    exact ⟨_, rfl, (Array.getElem?_eq_some_iff.mp hold).1,
      ⟨.cons (head.set hslot v) tail, hglobals, hslotless⟩⟩

/-- A declaration of a name without a slot in the innermost frame uses the next one. -/
theorem define_fresh (h : ScopesMatch capacities S scopes frames globals) {name : String}
    {slot : UInt16} (hinner : S.isGlobal = false) (hname : S.innermost[name]? = none)
    (hslot : slot.toNat = S.localCount) (hroom : ∀ capacity ∈ capacities.head?,
      (S.define name slot).localCount ≤ capacity) (v : Value) :
    ∃ values, frames[0]? = some values ∧ slot.toNat < values.size ∧
      ScopesMatch capacities (S.define name slot) (scopes.define name v)
        (frames.modify 0 fun values => values.setIfInBounds slot.toNat v) globals := by
  obtain ⟨hmatch, hglobals, hslotless⟩ := h
  obtain ⟨inner, topSlots⟩ := S
  obtain ⟨scopesInner, topNames⟩ := scopes
  cases hmatch with
  | nil => cases hinner
  | @cons capacity _ slots _ _ _ values _ head tail =>
    have hname : slots[name]? = none := hname
    have hslot : slot.toNat = slots.size := hslot
    have hsize : slots.size < capacity := by
      have hle : (slots.insert name slot).size ≤ capacity := hroom capacity rfl
      rw [Frame.size_insert_of_none hname] at hle
      omega
    exact ⟨values, rfl, by rw [head.size, hslot]; exact hsize,
      ⟨.cons (head.define hname hslot hsize v) tail, hglobals, hslotless⟩⟩

theorem push (h : ScopesMatch capacities S scopes frames globals) (capacity : Nat) :
    ScopesMatch (capacity :: capacities) S.push scopes.push
      (Array.replicate capacity .null :: frames) globals :=
  ⟨.cons (.fresh capacity) h.inner, h.globals, h.slotless⟩

theorem pop {capacity : Nat} (h : ScopesMatch (capacity :: capacities) S scopes frames globals) :
    ∃ values rest, frames = values :: rest ∧
      ScopesMatch capacities S.pop scopes.pop rest globals := by
  obtain ⟨hmatch, hglobals, hslotless⟩ := h
  obtain ⟨inner, topSlots⟩ := S
  obtain ⟨scopesInner, topNames⟩ := scopes
  cases hmatch with
  | cons head tail => exact ⟨_, _, rfl, ⟨tail, hglobals, hslotless⟩⟩

theorem drop (h : ScopesMatch capacities S scopes frames globals) (n : Nat) :
    ScopesMatch (capacities.drop n) { S with inner := S.inner.drop n }
      { scopes with inner := scopes.inner.drop n } (frames.drop n) globals :=
  ⟨h.inner.drop n, h.globals, h.slotless⟩

end ScopesMatch

/-- The bindings of a run are the globals of evaluation and of execution. -/
theorem scopesMatch_start (bindings : Table Value) :
    ScopesMatch [] .empty (globalsOf bindings) [] (Std.TreeMap.ofList bindings) := by
  have hdefine (frame : Frame Value) : bindings.foldl
      (fun scopes entry => scopes.define entry.1 entry.2) (⟨[], frame⟩ : Scopes Value) =
        ⟨[], frame.insertMany bindings⟩ := by
    induction bindings generalizing frame with
    | nil => simp
    | cons entry rest ih =>
      rw [List.foldl_cons, Std.TreeMap.insertMany_cons]
      exact ih (frame.insert entry.1 entry.2)
  have hglobals : globalsOf bindings = ⟨[], Std.TreeMap.insertMany ∅ bindings⟩ := hdefine ∅
  rw [hglobals]
  refine ⟨.nil, ?_, rfl⟩
  cases bindings with
  | nil => simp
  | cons entry rest => rw [Std.TreeMap.ofList_cons, Std.TreeMap.insertMany_cons]

/-! ### The slots that code sees -/

/-- The second scopes are the first ones with more names in the innermost frame, of which the global
one gets none. -/
structure Scopes.Widens (S S' : Scopes UInt16) : Prop where
  pop : S'.pop = S.pop
  isGlobal : S'.isGlobal = S.isGlobal
  localCount : S.localCount ≤ S'.localCount
  global : S.isGlobal = true → S' = S

namespace Scopes.Widens

theorem refl (S : Scopes UInt16) : S.Widens S := ⟨rfl, rfl, Nat.le_refl _, fun _ => rfl⟩

theorem trans {S S₁ S₂ : Scopes UInt16} (h : S.Widens S₁) (h' : S₁.Widens S₂) : S.Widens S₂ where
  pop := h'.pop.trans h.pop
  isGlobal := h'.isGlobal.trans h.isGlobal
  localCount := Nat.le_trans h.localCount h'.localCount
  global hglobal := (h'.global (h.isGlobal.trans hglobal)).trans (h.global hglobal)

end Scopes.Widens

section Resolution

variable {program : Program} {S S' : Scopes UInt16} {base last : Nat}

theorem Declares.widens {name : String} {op : Op} (h : Declares program S name op S') :
    S.Widens S' := by
  cases h with
  | again _ _ => exact .refl S
  | global _ _ => exact .refl S
  | @fresh slot hinner hname _ =>
    obtain ⟨inner, topSlots⟩ := S
    cases inner with
    | nil => cases hinner
    | cons slots rest =>
      have hnone : slots[name]? = none := hname
      have hcount : slots.size ≤ (slots.insert name slot).size := by
        rw [Frame.size_insert_of_none hnone]
        exact Nat.le_succ _
      exact ⟨rfl, rfl, hcount, fun hglobal => nomatch hglobal⟩

theorem CodeOfAll.scopes_eq {es : List Expr}
    (hes : ∀ e ∈ es, ∀ S base last S', CodeOf program S base e last S' → S' = S)
    (h : CodeOfAll program S base es last S') : S' = S := by
  induction es generalizing S base with
  | nil => cases h; rfl
  | cons e rest ih =>
    cases h with
    | cons hhead htail =>
      rw [List.forall_mem_cons] at hes
      rw [ih hes.2 htail, hes.1 _ _ _ _ hhead]

theorem CodeOfEntries.scopes_eq {entries : List (String × Expr)}
    (hes : ∀ entry ∈ entries, ∀ S base last S', CodeOf program S base entry.2 last S' → S' = S)
    (h : CodeOfEntries program S base entries last S') : S' = S := by
  induction entries generalizing S base with
  | nil => cases h; rfl
  | cons entry rest ih =>
    cases h with
    | cons _ _ hhead htail =>
      rw [List.forall_mem_cons] at hes
      rw [ih hes.2 htail, hes.1 _ _ _ _ hhead]

/-- An item of a block may bind a name, if its payload does not. -/
theorem CodeOf.widens {e : Expr}
    (he : ∀ S base last S', CodeOf program S base e.payload last S' → S' = S)
    (h : CodeOf program S base e last S') : S.Widens S' := by
  cases e with
  | declare name value =>
    cases h with
    | declare hvalue hdeclares _ =>
      rw [he _ _ _ _ hvalue] at hdeclares
      exact hdeclares.widens
  | _ =>
    rw [he _ _ _ _ h]
    exact .refl S

theorem CodeOfRest.widens {es : List Expr}
    (hes : ∀ e ∈ es, ∀ S base last S', CodeOf program S base e.payload last S' → S' = S)
    (h : CodeOfRest program S base es last S') : S.Widens S' := by
  induction es generalizing S base with
  | nil => cases h; exact .refl _
  | cons e rest ih =>
    cases h with
    | cons _ hhead htail =>
      rw [List.forall_mem_cons] at hes
      exact (hhead.widens hes.1).trans (ih hes.2 htail)

/-- The code behind an expression that is no declaration sees the slots that it sees itself. -/
theorem CodeOf.scopes_eq {b : Bool} {e : Expr} (hplaced : Placed b e)
    (h : CodeOf program S base e last S') : S' = S := by
  induction hplaced generalizing S base last S' with
  | literal => cases h; rfl
  | ref => cases h; rfl
  | jump => cases h; rfl
  | binary _ _ ihLeft ihRight =>
    cases h with
    | binary _ hleft hright _ => rw [ihRight hright, ihLeft hleft]
    | logical _ hleft _ hright _ _ => rw [ihRight hright, ihLeft hleft]
  | unary _ ih =>
    cases h with
    | unary hoperand _ => exact ih hoperand
  | call _ ih =>
    cases h with
    | call hargs _ _ _ => exact hargs.scopes_eq fun e he _ _ _ _ => ih e he
  | block _ ih =>
    cases h with
    | emptyBlock _ _ _ _ => rfl
    | block _ hhead htail _ _ =>
      rw [List.forall_mem_cons] at ih
      have hitem := hhead.widens fun _ _ _ _ => ih.1
      have hrest := htail.widens fun e he _ _ _ _ => ih.2 e he
      rw [(hitem.trans hrest).pop]
      rfl
  | cond _ _ _ ihTest ihYes ihNo =>
    cases h with
    | cond htest _ hyes _ hno _ _ =>
      rw [ihTest htest] at hyes
      rw [ihYes hyes] at hno
      cases hno with
      | none _ _ => rfl
      | some hno => exact ihNo _ rfl hno
  | loop _ _ ihTest ihBody =>
    cases h with
    | loop _ _ htest hbody _ _ _ _ _ _ _ =>
      rw [ihBody hbody]
      cases htest with
      | none => rfl
      | some htest _ => exact ihTest _ rfl htest
  | assign _ ih =>
    cases h with
    | assign hvalue _ _ => exact ih hvalue
  | object _ ih =>
    cases h with
    | object hentries _ _ => exact hentries.scopes_eq fun entry he _ _ _ _ => ih entry he
  | array _ ih =>
    cases h with
    | array hitems _ _ => exact hitems.scopes_eq fun e he _ _ _ _ => ih e he
  | property _ ih =>
    cases h with
    | property htarget _ _ => exact ih htarget
  | index _ _ ihTarget ihPosition =>
    cases h with
    | index htarget hposition _ => rw [ihPosition hposition, ihTarget htarget]

end Resolution

end Covenant
