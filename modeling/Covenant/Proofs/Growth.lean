import Covenant.Proofs.Shape

/-!
# Slots of names in code

The code of an expression gives the names it declares the next slots of the innermost frame, also
where a declaration stands inside of another expression. So the frame of a block, which has as many
slots as names are declared in it, has the slots of all of them, and every name that is resolved to
a slot finds it.

## Main definitions

* `Scopes.Numbered` : the names of the innermost frame have the first slots.
* `Scopes.Grows` : scopes with more names in the innermost frame.
* `Roomy` : open frames that have the slots of all names.

## Main results

* `CodeOf.grows` : what the code behind an expression sees.
* `Roomy.hasSlot` : a name that is resolved to a slot has it.
* `Roomy.of_block` : the frame of a block is large enough.
-/

namespace Covenant

namespace Scopes

/-- The names of the innermost frame have the first slots. -/
def Numbered (S : Scopes UInt16) : Prop :=
  ∀ (name : String) (slot : UInt16), S.innermost[name]? = some slot → slot.toNat < S.localCount

/-- The second scopes are the first ones with more names in the innermost frame, numbered on. -/
structure Grows (S S' : Scopes UInt16) : Prop extends S.Widens S' where
  kept (name : String) (slot : UInt16) :
    S.innermost[name]? = some slot → S'.innermost[name]? = some slot
  numbered : S.Numbered → S'.Numbered

theorem Grows.refl (S : Scopes UInt16) : S.Grows S :=
  ⟨.refl S, fun _ _ => id, id⟩

theorem Grows.trans {S S₁ S₂ : Scopes UInt16} (h : S.Grows S₁) (h' : S₁.Grows S₂) : S.Grows S₂ :=
  ⟨h.toWidens.trans h'.toWidens, fun name slot hslot => h'.kept name slot (h.kept name slot hslot),
    fun hS => h'.numbered (h.numbered hS)⟩

theorem numbered_push (S : Scopes UInt16) : S.push.Numbered := by
  intro name slot h
  simp [innermost, push] at h

/-- A name that an inner frame gets is there. -/
theorem define_innermost {S : Scopes UInt16} (h : S.isGlobal = false) (name : String)
    (slot : UInt16) :
    (S.define name slot).isGlobal = false ∧ (S.define name slot).innermost[name]? = some slot := by
  obtain ⟨_ | ⟨slots, rest⟩, globals⟩ := S
  · cases h
  · refine ⟨rfl, ?_⟩
    change (slots.insert name slot)[name]? = some slot
    rw [Frame.getElem?_insert, if_pos rfl]

end Scopes

section Growth

variable {program : Program} {S S' : Scopes UInt16} {base last : Nat}

theorem Declares.grows {name : String} {op : Op} (h : Declares program S name op S') :
    S.Grows S' := by
  have hwidens := h.widens
  cases h with
  | again _ _ => exact .refl S
  | global _ _ => exact .refl S
  | @fresh slot hinner hname hslot =>
    obtain ⟨inner, topSlots⟩ := S
    rcases inner with _ | ⟨slots, rest⟩
    · cases hinner
    have hnone : slots[name]? = none := hname
    have hslot : slot.toNat = slots.size := hslot
    have hsize := Frame.size_insert_of_none hnone slot
    refine ⟨hwidens, fun other slot' hother => ?_, fun hnumbered other slot' hother => ?_⟩
    · have hother : slots[other]? = some slot' := hother
      have hne : name ≠ other := by
        rintro rfl
        rw [hnone] at hother
        cases hother
      change (slots.insert name slot)[other]? = some slot'
      rw [Frame.getElem?_insert, if_neg hne, hother]
    · have hother : (slots.insert name slot)[other]? = some slot' := hother
      change slot'.toNat < (slots.insert name slot).size
      rw [Frame.getElem?_insert] at hother
      split_ifs at hother
      · cases hother
        omega
      · have hlt : slot'.toNat < slots.size := hnumbered other slot' hother
        omega

theorem CodeOfAll.grows {es : List Expr}
    (hes : ∀ e ∈ es, ∀ S base last S', CodeOf program S base e last S' → S.Grows S')
    (h : CodeOfAll program S base es last S') : S.Grows S' := by
  induction es generalizing S base with
  | nil =>
    cases h
    exact .refl _
  | cons e rest ih =>
    rw [List.forall_mem_cons] at hes
    cases h with
    | cons hhead htail => exact (hes.1 _ _ _ _ hhead).trans (ih hes.2 htail)

theorem CodeOfRest.grows {es : List Expr}
    (hes : ∀ e ∈ es, ∀ S base last S', CodeOf program S base e last S' → S.Grows S')
    (h : CodeOfRest program S base es last S') : S.Grows S' := by
  induction es generalizing S base with
  | nil =>
    cases h
    exact .refl _
  | cons e rest ih =>
    rw [List.forall_mem_cons] at hes
    cases h with
    | cons _ hhead htail => exact (hes.1 _ _ _ _ hhead).trans (ih hes.2 htail)

theorem CodeOfEntries.grows {entries : List (String × Expr)}
    (hes : ∀ entry ∈ entries, ∀ S base last S',
      CodeOf program S base entry.2 last S' → S.Grows S')
    (h : CodeOfEntries program S base entries last S') : S.Grows S' := by
  induction entries generalizing S base with
  | nil =>
    cases h
    exact .refl _
  | cons entry rest ih =>
    rw [List.forall_mem_cons] at hes
    cases h with
    | cons _ _ hhead htail => exact (hes.1 _ _ _ _ hhead).trans (ih hes.2 htail)

/-- The code behind an expression sees the slots that it sees itself, and more in the innermost
frame if there are declarations in the expression. -/
theorem CodeOf.grows {e : Expr} (h : CodeOf program S base e last S') : S.Grows S' := by
  induction e generalizing S base last S' with
  | literal | ref | jump =>
    cases h
    exact .refl _
  | binary left op right ihLeft ihRight =>
    cases h with
    | binary _ hleft hright _ => exact (ihLeft hleft).trans (ihRight hright)
    | logical _ hleft _ hright _ _ => exact (ihLeft hleft).trans (ihRight hright)
  | unary op operand ih =>
    cases h with
    | unary hoperand _ => exact ih hoperand
  | call name args ih =>
    cases h with
    | call hargs _ _ _ => exact hargs.grows fun e he _ _ _ _ => ih e he
  | block items ih =>
    cases h with
    | emptyBlock _ _ _ _ => exact .refl _
    | block _ hhead htail _ _ =>
      rw [List.forall_mem_cons] at ih
      have hgrows := (ih.1 hhead).trans (htail.grows fun e he _ _ _ _ => ih.2 e he)
      rw [hgrows.pop]
      exact .refl _
  | cond test yes no ihTest ihYes ihNo =>
    cases h with
    | cond htest _ hyes _ hno _ _ =>
      have hgrows := (ihTest htest).trans (ihYes hyes)
      cases hno with
      | none _ _ => exact hgrows
      | some hno => exact hgrows.trans (ihNo _ rfl hno)
  | loop test body ihTest ihBody =>
    cases h with
    | loop _ _ htest hbody _ _ _ _ _ _ _ =>
      cases htest with
      | none => exact ihBody hbody
      | some htest _ => exact (ihTest _ rfl htest).trans (ihBody hbody)
  | assign target value ih =>
    cases h with
    | assign hvalue _ _ => exact ih hvalue
  | declare name value ih =>
    cases h with
    | declare hvalue hdeclares _ => exact (ih hvalue).trans hdeclares.grows
  | object entries ih =>
    cases h with
    | object hentries _ _ => exact hentries.grows fun entry he _ _ _ _ => ih entry he
  | array items ih =>
    cases h with
    | array hitems _ _ => exact hitems.grows fun e he _ _ _ _ => ih e he
  | property target name ih =>
    cases h with
    | property htarget _ _ => exact ih htarget
  | index target position ihTarget ihPosition =>
    cases h with
    | index htarget hposition _ => exact (ihTarget htarget).trans (ihPosition hposition)

end Growth

/-- Open frames of these sizes have the slots of all names. -/
structure Roomy (S : Scopes UInt16) (sizes : List Nat) : Prop where
  inner : List.Forall₂ (fun (slots : Frame UInt16) size =>
    ∀ (name : String) (slot : UInt16), slots[name]? = some slot → slot.toNat < size) S.inner sizes
  slotless : S.globals = ∅

namespace Roomy

variable {S S' : Scopes UInt16} {shape : Shape}

/-- Where there is room for more names there is room for fewer. -/
theorem of_grows {sizes : List Nat} (h : Roomy S' sizes) (hgrows : S.Grows S') :
    Roomy S sizes := by
  obtain ⟨inner, globals⟩ := S
  obtain ⟨inner', globals'⟩ := S'
  have hpop := hgrows.pop
  have hglobal := hgrows.isGlobal
  rcases inner with _ | ⟨slots, rest⟩
  · rw [hgrows.global rfl] at h
    exact h
  · rcases inner' with _ | ⟨slots', rest'⟩
    · cases hglobal
    · injection hpop with hrest hglobals
      obtain rfl : rest' = rest := hrest
      obtain rfl : globals' = globals := hglobals
      obtain ⟨_ | ⟨hhead, htail⟩, hslotless⟩ := h
      exact ⟨.cons (fun name slot hslot => hhead name slot (hgrows.kept name slot hslot)) htail,
        hslotless⟩

/-- A name that is resolved to a slot has it. -/
theorem hasSlot (h : Roomy S shape.sizes) {name : String} {depth : Nat} {slot : UInt16}
    (hname : S.lookup? name = some (depth, slot)) : shape.HasSlot depth slot.toNat := by
  have hin (frames : List (Frame UInt16)) (sizes : List Nat) (hops : Nat)
      (hroom : List.Forall₂ (fun (slots : Frame UInt16) size =>
        ∀ (name : String) (slot : UInt16), slots[name]? = some slot → slot.toNat < size)
        frames sizes)
      (hfound : Scopes.lookupIn? name frames hops = some (depth, slot)) :
      ∃ i size, depth = hops + i ∧ sizes[i]? = some size ∧ slot.toNat < size := by
    induction hroom generalizing hops with
    | nil => cases hfound
    | @cons slots size frames sizes hhead _ ih =>
      cases hslot : slots[name]? with
      | some slot' =>
        simp only [Scopes.lookupIn?, hslot, Option.some.injEq, Prod.mk.injEq] at hfound
        obtain ⟨rfl, rfl⟩ := hfound
        exact ⟨0, size, rfl, rfl, hhead name slot' hslot⟩
      | none =>
        simp only [Scopes.lookupIn?, hslot] at hfound
        obtain ⟨i, size, hdepth, hsize, hlt⟩ := ih (hops + 1) hfound
        exact ⟨i + 1, size, by omega, hsize, hlt⟩
  have hfound : Scopes.lookupIn? name S.inner 0 = some (depth, slot) := by
    unfold Scopes.lookup? at hname
    cases hlookup : Scopes.lookupIn? name S.inner 0 with
    | some found => simpa [hlookup] using hname
    | none => simp [hlookup, h.slotless] at hname
  obtain ⟨i, size, hdepth, hsize, hlt⟩ := hin S.inner shape.sizes 0 h.inner hfound
  obtain rfl : depth = i := by omega
  exact ⟨size, hsize, hlt⟩

/-- A name of the innermost frame has its slot there. -/
theorem hasSlot_innermost (h : Roomy S shape.sizes) (hinner : S.isGlobal = false) {name : String}
    {slot : UInt16} (hname : S.innermost[name]? = some slot) : shape.HasSlot 0 slot.toNat := by
  obtain ⟨inner, globals⟩ := S
  obtain ⟨operands, sizes, loops⟩ := shape
  obtain ⟨hforall, -⟩ := h
  rcases inner with _ | ⟨slots, rest⟩
  · cases hinner
  · obtain _ | ⟨hhead, -⟩ := hforall
    exact ⟨_, rfl, hhead name slot hname⟩

/-- A frame with as many slots as there are names in it has room for them. -/
theorem of_block {sizes : List Nat} (h : Roomy S.pop sizes) (hinner : S.isGlobal = false)
    (hnumbered : S.Numbered) : Roomy S (S.localCount :: sizes) := by
  obtain ⟨inner, globals⟩ := S
  rcases inner with _ | ⟨slots, rest⟩
  · cases hinner
  · exact ⟨.cons hnumbered h.inner, h.slotless⟩

end Roomy

end Covenant
