import Covenant.Proofs.Correspondence
import Covenant.Proofs.EnclosedJumps
import Covenant.Proofs.Growth

/-!
# Compiled programs are well formed

A program compiled from a script whose jumps lie in loops finds what its instructions need wherever
a run takes it. Each offset of the code has a shape that every machine has there, whichever way it
came. The shapes follow the expression: its code starts from some shape and leaves one more operand,
and a jump leaves the shape that the innermost loop began with. So it is enough to know of the code
behind an expression, and of the two targets of a loop around it, that running on from there does no
harm (`SafeAt`). A loop comes back to its own beginning, so that is shown for runs of every length.

## Main definitions

* `Sound` : how a run of a well-formed program ends.
* `SafeAt` : running on from an offset with a shape is sound.
* `Landing` : the innermost loop is there, and running on from its targets is sound.

## Main results

* `safeCode` : the code of an expression is safe if what follows it is.
* `runProgram_sound` : a compiled program never turns out to be malformed, and ends at its end with
  nothing but its value.
-/

namespace Covenant

open Machine

variable {ι ι' σ : Type}

/-- A run has come to the end of the program with its value as the only thing left, has failed for
another reason than the program, or goes on. -/
def Sound (program : Program) : EStateM.Result Halt (Machine σ) Value → Prop
  | .ok value m => m.pc = program.code.size ∧ m.stack = [value] ∧ m.frames = [] ∧ m.loops = []
  | .error (.fail e) _ => ¬ e.Malformed
  | .error .unfinished _ => True

/-! ### Instructions -/

namespace Machine.Ensures

variable {setting : Setting ι σ} {program : Program} {shape : Shape} {offset : Nat}

theorem constant {i : UInt32} {v : Value} {o : Operand} (hpool : program.Pools i v)
    (ho : o.Admits v) :
    Ensures (Fits shape offset) (perform setting program (.constant i))
      fun _ => Fits (shape.push o) offset := by
  rw [perform, Program.constant_eq hpool]
  exact Ensures.push ho

theorem value {i : UInt32} {v : Value} (hpool : program.Pools i v) :
    Ensures (Fits shape offset) (perform setting program (.constant i))
      fun _ => Fits (shape.push .any) offset :=
  constant hpool trivial

theorem key {i : UInt32} {name : String} (hpool : program.Pools i (.string name)) :
    Ensures (Fits shape offset) (perform setting program (.constant i))
      fun _ => Fits (shape.push .key) offset :=
  constant hpool ⟨name, rfl⟩

/-- A name that is resolved to a slot or is a constant can be loaded. -/
theorem loads {S : Scopes UInt16} {name : String} {op : Op} (h : Loads program S name op)
    (hroom : Roomy S shape.sizes) :
    Ensures (Fits shape offset) (perform setting program op)
      fun _ => Fits (shape.push .any) offset := by
  obtain ⟨hname⟩ | ⟨-, hpool⟩ := h
  · exact (readSlot (hroom.hasSlot hname)).bind fun v => pushAny v
  · rw [perform, Program.nameConstant_eq hpool]
    exact (readGlobal name).bind fun v => pushAny v

theorem storeLocal {depth slot : UInt16} {o : Operand}
    (hslot : shape.HasSlot depth.toNat slot.toNat) :
    Ensures (Fits (shape.push o) offset) (perform setting program (.storeLocal depth slot))
      fun _ => Fits (shape.push o) offset :=
  peek.bind fun v => @writeSlot _ (shape.push o) _ _ _ hslot v

theorem defineName {i : UInt32} {name : String} {o : Operand}
    (hpool : program.Pools i (.string name)) :
    Ensures (Fits (shape.push o) offset) (perform setting program (.defineName i))
      fun _ => Fits (shape.push o) offset := by
  rw [perform, Program.nameConstant_eq hpool]
  exact peek.bind fun v => defineGlobal name v

theorem assigns {S : Scopes UInt16} {name : String} {op : Op} {o : Operand}
    (h : Assigns program S name op) (hroom : Roomy S shape.sizes) :
    Ensures (Fits (shape.push o) offset) (perform setting program op)
      fun _ => Fits (shape.push o) offset := by
  obtain ⟨hname⟩ | ⟨-, -, hpool⟩ | ⟨-, -, hpool⟩ := h
  · exact storeLocal (hroom.hasSlot hname)
  · rw [perform, Program.nameConstant_eq hpool]
    exact peek.bind fun v => writeGlobal name v
  · exact defineName hpool

/-- A declared name has its slot among those that the code behind it sees. -/
theorem declares {S S' : Scopes UInt16} {name : String} {op : Op} {o : Operand}
    (h : Declares program S name op S') (hroom : Roomy S' shape.sizes) :
    Ensures (Fits (shape.push o) offset) (perform setting program op)
      fun _ => Fits (shape.push o) offset := by
  rcases h with ⟨hinner, hname⟩ | @⟨slot, hinner, -, -⟩ | ⟨-, hpool⟩
  · exact storeLocal (hroom.hasSlot_innermost hinner hname)
  · have hdefined := Scopes.define_innermost hinner name slot
    exact storeLocal (hroom.hasSlot_innermost hdefined.1 hdefined.2)
  · exact defineName hpool

theorem unary (op : UnaryOp) :
    Ensures (Fits (shape.push .any) offset) (perform setting program (.unary op))
      fun _ => Fits (shape.push .any) offset :=
  pop.bind fun a => (ofExcept (op.apply_byValues a).regular).bind fun v => pushAny v

theorem binary (op : BinaryOp) :
    Ensures (Fits ((shape.push .any).push .any) offset) (perform setting program (.binary op))
      fun _ => Fits (shape.push .any) offset :=
  pop.bind fun b => pop.bind fun a =>
    (ofExcept (op.apply_byValues a b).regular).bind fun v => pushAny v

theorem getIndex :
    Ensures (Fits ((shape.push .any).push .any) offset) (perform setting program .getIndex)
      fun _ => Fits (shape.push .any) offset :=
  pop.bind fun b => pop.bind fun a =>
    (ofExcept (a.index_byValues b).regular).bind fun v => pushAny v

theorem getProperty {i : UInt32} {name : String} (hpool : program.Pools i (.string name)) :
    Ensures (Fits (shape.push .any) offset) (perform setting program (.getProperty i))
      fun _ => Fits (shape.push .any) offset := by
  rw [perform, Program.nameConstant_eq hpool]
  exact pop.bind fun a => (ofExcept (a.property_byValues name).regular).bind fun v => pushAny v

theorem requireBool (op : BinaryOp) :
    Ensures (Fits (shape.push .any) offset) (perform setting program (.requireBool op))
      fun _ => Fits (shape.push .any) offset :=
  peek.bind fun a => (ofExcept (requireBoolean_byValues _ a).regular).bind fun _ _ hm => hm

theorem call {i : UInt32} {name : String} {argc : UInt16} {count : Nat}
    (hpool : program.Pools i (.string name)) (hcount : argc.toNat = count) :
    Ensures (Fits { shape with operands := List.replicate count .any ++ shape.operands } offset)
      (perform setting program (.call i argc)) fun _ => Fits (shape.push .any) offset := by
  rw [perform, Program.nameConstant_eq hpool]
  refine (popMany (by rw [hcount, List.length_replicate])).bind fun args => ?_
  exact .of_and fun _ => (ofRun (Run.call_blameless setting name args)).bind fun v => pushAny v

theorem makeArray {argc : UInt32} {count : Nat} (hcount : argc.toNat = count) :
    Ensures (Fits { shape with operands := List.replicate count .any ++ shape.operands } offset)
      (perform setting program (.makeArray argc)) fun _ => Fits (shape.push .any) offset := by
  refine (popMany (by rw [hcount, List.length_replicate])).bind fun items => ?_
  exact .of_and fun _ => pushAny _

theorem makeObject {argc : UInt32} {count : Nat} (hcount : argc.toNat = count) :
    Ensures (Fits { shape with operands := Operand.entries count ++ shape.operands } offset)
      (perform setting program (.makeObject argc)) fun _ => Fits (shape.push .any) offset := by
  refine (popMany ?_).bind fun flat => ?_
  · rw [hcount, Operand.length_entries]
  · exact .of_and fun hflat => (ofExcept (objectOf_regular [] hflat)).bind fun fields => pushAny _

theorem enterScope (slots : UInt16) :
    Ensures (Fits shape offset) (perform setting program (.enterScope slots))
      fun _ => Fits { shape with sizes := slots.toNat :: shape.sizes } offset := by
  refine (ofRun (Run.checkpoint_blameless setting.limits)).bind fun _ => ?_
  intro m hm
  rw [get_bind]
  exact ((ofRun (Run.checkScopeDepth_blameless _ _)).bind fun _ => openFrame slots.toNat) m hm

end Machine.Ensures

/-! ### Offsets -/

/-- Running on for at most so many instructions from a machine of the shape at the offset is
sound. -/
def SafeAt (setting : Setting ι σ) (program : Program) (n offset : Nat) (shape : Shape) : Prop :=
  ∀ k ≤ n, ∀ m : Machine σ, m.Fits shape offset → Sound program (execute setting program k m)

namespace SafeAt

variable {setting : Setting ι σ} {program : Program} {n offset target : Nat} {shape shape' : Shape}

theorem mono {n' : Nat} (h : SafeAt setting program n offset shape) (hle : n' ≤ n) :
    SafeAt setting program n' offset shape :=
  fun k hk => h k (Nat.le_trans hk hle)

theorem zero : SafeAt setting program 0 offset shape := by
  intro k hk m _
  obtain rfl : k = 0 := by omega
  trivial

/-- An instruction after which running on is sound for one instruction less. -/
theorem step {op : Op} (hop : program.At offset op)
    (hperform : Ensures (Fits shape (offset + 1)) (perform setting program op)
      fun _ m => ∃ target shape', m.Fits shape' target ∧
        SafeAt setting program n target shape') :
    SafeAt setting program (n + 1) offset shape := by
  intro k hk m hm
  rcases k with _ | k
  · trivial
  have hstep : Ensures (Fits shape offset) (Machine.step setting program op)
      fun _ m => ∃ target shape', m.Fits shape' target ∧
        SafeAt setting program n target shape' := by
    refine (Ensures.ofRun (Run.charge_blameless setting.limits)).bind fun _ m hm => ?_
    rw [get_bind, hm.pc]
    exact ((Ensures.jumpTo (offset + 1)).bind fun _ => hperform) m hm
  have hstep := hstep m hm
  have hget : program.code[m.pc]? = some op := by rw [hm.pc]; exact hop
  simp only [execute, hget]
  rcases hr : Machine.step setting program op m with ⟨⟨⟩, m'⟩ | ⟨e, m'⟩ <;> rw [hr] at hstep
  · obtain ⟨target, shape', hfits, hsafe⟩ := hstep
    exact hsafe k (by omega) m' hfits
  · exact hstep

/-- An instruction after which running on is sound, wherever it leads. -/
theorem leads {op : Op} (hop : program.At offset op)
    (hperform : Ensures (Fits shape (offset + 1)) (perform setting program op)
      fun _ m => ∃ target shape', m.Fits shape' target ∧
        SafeAt setting program n target shape') :
    SafeAt setting program n offset shape :=
  mono (step hop hperform) (Nat.le_succ n)

/-- An instruction that leads to the one behind it. -/
theorem next {op : Op} (hop : program.At offset op)
    (hperform : Ensures (Fits shape (offset + 1)) (perform setting program op)
      fun _ => Fits shape' (offset + 1))
    (hnext : SafeAt setting program n (offset + 1) shape') :
    SafeAt setting program n offset shape :=
  leads hop (hperform.weaken fun _ _ hm => ⟨_, _, hm, hnext⟩)

theorem jump {dest : UInt32} (hop : program.At offset (.jump dest))
    (htarget : SafeAt setting program n dest.toNat shape) : SafeAt setting program n offset shape :=
  leads hop ((Ensures.jumpTo dest.toNat).weaken fun _ _ hm => ⟨_, _, hm, htarget⟩)

/-- A conditional jump takes its operand and goes on here or there. -/
theorem jumpIfFalse {dest : UInt32} (hop : program.At offset (.jumpIfFalse dest))
    (htrue : SafeAt setting program n (offset + 1) shape)
    (hfalse : SafeAt setting program n dest.toNat shape) :
    SafeAt setting program n offset (shape.push .any) := by
  refine leads hop (Ensures.pop.bind fun test =>
    (Ensures.ofExcept (requireBoolean_byValues _ test).regular).bind fun flag => ?_)
  cases flag
  · exact (Ensures.jumpTo dest.toNat).weaken fun _ _ hm => ⟨_, _, hm, hfalse⟩
  · exact fun m hm => ⟨_, _, hm, htrue⟩

/-- A short circuit keeps its operand if that decides, and otherwise goes on without it. -/
theorem shortCircuit {op : BinaryOp} {dest : UInt32}
    (hop : program.At offset (.shortCircuit op dest))
    (hnext : SafeAt setting program n (offset + 1) shape)
    (hdecided : SafeAt setting program n dest.toNat (shape.push .any)) :
    SafeAt setting program n offset (shape.push .any) := by
  refine leads hop (Ensures.peek.bind fun left =>
    (Ensures.ofExcept (requireBoolean_byValues _ left).regular).bind fun flag => ?_)
  split_ifs
  · exact (Ensures.jumpTo dest.toNat).weaken fun _ _ hm => ⟨_, _, hm, hdecided⟩
  · exact Ensures.pop.bind fun _ _ hm => ⟨_, _, hm, hnext⟩

/-- At the end of the program there is nothing left but the value. -/
theorem atEnd : SafeAt setting program n program.code.size ⟨[.any], [], []⟩ := by
  rintro (_ | k) - m hm
  · trivial
  have hget : program.code[m.pc]? = none := by
    rw [hm.pc]
    exact Array.getElem?_size
  obtain ⟨v, hstack⟩ : ∃ v, m.stack = [v] := by
    have hlength := hm.stack.length_eq
    exact List.length_eq_one_iff.mp hlength.symm
  simp only [execute, hget]
  exact ⟨hm.pc, by rw [hstack]; rfl, List.map_eq_nil_iff.mp hm.frames, hm.loops⟩

end SafeAt

/-! ### Loops around code -/

/-- The innermost loop began with no more than there is now, and running on from its targets is
sound. -/
structure LandsAt (setting : Setting ι σ) (program : Program) (n : Nat) (shape : Shape)
    (r : LoopRecord) : Prop where
  operands : r.stackSize ≤ shape.operands.length
  sizes : r.frameCount ≤ shape.sizes.length
  continues : SafeAt setting program n r.continueTarget (shape.unwound r)
  breaks : SafeAt setting program n r.breakTarget (shape.unwound r)

/-- There is a loop around the code, and jumps to it land well. -/
def Landing (setting : Setting ι σ) (program : Program) (n : Nat) (shape : Shape) : Prop :=
  ∃ r rest, shape.loops = r :: rest ∧ LandsAt setting program n shape r

namespace Landing

variable {setting : Setting ι σ} {program : Program} {n : Nat} {shape : Shape}

theorem unwound_push {r : LoopRecord} (o : Operand) (h : r.stackSize ≤ shape.operands.length) :
    (shape.push o).unwound r = shape.unwound r := by
  simp only [Shape.unwound, Shape.push, List.length_cons,
    Nat.succ_sub h, List.drop_succ_cons]

theorem push (h : Landing setting program n shape) (o : Operand) :
    Landing setting program n (shape.push o) := by
  obtain ⟨r, rest, hloops, hoperands, hsizes, hcontinues, hbreaks⟩ := h
  rw [← unwound_push o hoperands] at hcontinues hbreaks
  exact ⟨r, rest, hloops, Nat.le_succ_of_le hoperands, hsizes, hcontinues, hbreaks⟩

theorem frame (h : Landing setting program n shape) (size : Nat) :
    Landing setting program n { shape with sizes := size :: shape.sizes } := by
  obtain ⟨r, rest, hloops, hoperands, hsizes, hcontinues, hbreaks⟩ := h
  have hunwound : Shape.unwound { shape with sizes := size :: shape.sizes } r =
      shape.unwound r := by
    simp only [Shape.unwound, List.length_cons, Nat.succ_sub hsizes, List.drop_succ_cons]
  rw [← hunwound] at hcontinues hbreaks
  exact ⟨r, rest, hloops, hoperands, Nat.le_succ_of_le hsizes, hcontinues, hbreaks⟩

/-- A jump to the loop is sound. -/
theorem jump {offset : Nat} (h : Landing setting program n shape) (j : Jump)
    (hop : program.At offset j.op) : SafeAt setting program n offset shape := by
  obtain ⟨r, rest, hloops, -, -, hcontinues, hbreaks⟩ := h
  refine SafeAt.leads hop ?_
  cases j with
  | break_ =>
    refine (Ensures.unwind hloops).bind fun found => .of_and fun hfound => ?_
    rw [hfound]
    exact (Ensures.jumpTo _).weaken fun _ _ hm => ⟨_, _, hm, hbreaks⟩
  | continue_ =>
    refine (Ensures.unwind hloops).bind fun found => .of_and fun hfound => ?_
    rw [hfound]
    exact (Ensures.jumpTo _).weaken fun _ _ hm => ⟨_, _, hm, hcontinues⟩

end Landing

/-! ### Code -/

section Code

variable {setting : Setting ι σ} {program : Program} {S S' : Scopes UInt16} {base last n : Nat}
  {shape : Shape}

/-- Wherever the code of the expression stands, it is safe if the code behind it is, and if there is
a loop to land in for each jump that needs one around the expression. -/
def SafeCode (setting : Setting ι σ) (program : Program) (e : Expr) : Prop :=
  ∀ S base last S' n shape, CodeOf program S base e last S' → Roomy S' shape.sizes →
    (e.JumpsEnclosed ∨ Landing setting program n shape) →
    SafeAt setting program n last (shape.push .any) → SafeAt setting program n base shape

/-- The parts of an expression other than a loop may have the jumps that it may have. -/
theorem jumps_part {e part : Expr} (h : e.JumpsEnclosed ∨ Landing setting program n shape)
    (hloop : ∀ test body, e ≠ .loop test body) (hpart : part ∈ e.children) :
    part.JumpsEnclosed ∨ Landing setting program n shape :=
  h.imp_left fun h => h.part hloop hpart

theorem CodeOfAll.safe {es : List Expr} (hes : ∀ e ∈ es, SafeCode setting program e)
    (h : CodeOfAll program S base es last S') (hroom : Roomy S' shape.sizes)
    (hjumps : ∀ e ∈ es, e.JumpsEnclosed ∨ Landing setting program n shape)
    (hlast : SafeAt setting program n last
      { shape with operands := List.replicate es.length .any ++ shape.operands }) :
    SafeAt setting program n base shape := by
  induction es generalizing S base shape with
  | nil =>
    cases h
    exact hlast
  | cons e rest ih =>
    rw [List.forall_mem_cons] at hes hjumps
    cases h with
    | cons hhead htail =>
      have hgrows := htail.grows fun _ _ _ _ _ _ => CodeOf.grows
      refine hes.1 _ _ _ _ _ _ hhead (hroom.of_grows hgrows) hjumps.1 ?_
      refine ih hes.2 htail hroom (fun e he => (hjumps.2 e he).imp_right (·.push .any)) ?_
      rw [List.length_cons, List.replicate_succ', List.append_assoc] at hlast
      exact hlast

theorem CodeOfRest.safe {es : List Expr} (hes : ∀ e ∈ es, SafeCode setting program e)
    (h : CodeOfRest program S base es last S') (hroom : Roomy S' shape.sizes)
    (hjumps : ∀ e ∈ es, e.JumpsEnclosed ∨ Landing setting program n shape)
    (hlast : SafeAt setting program n last (shape.push .any)) :
    SafeAt setting program n base (shape.push .any) := by
  induction es generalizing S base with
  | nil =>
    cases h
    exact hlast
  | cons e rest ih =>
    rw [List.forall_mem_cons] at hes hjumps
    cases h with
    | cons hpop hhead htail =>
      have hgrows := htail.grows fun _ _ _ _ _ _ => CodeOf.grows
      exact SafeAt.next hpop (Ensures.pop.bind fun _ _ hm => hm)
        (hes.1 _ _ _ _ _ _ hhead (hroom.of_grows hgrows) hjumps.1 (ih hes.2 htail hjumps.2))

theorem CodeOfEntries.safe {entries : List (String × Expr)}
    (hes : ∀ entry ∈ entries, SafeCode setting program entry.2)
    (h : CodeOfEntries program S base entries last S') (hroom : Roomy S' shape.sizes)
    (hjumps : ∀ entry ∈ entries, entry.2.JumpsEnclosed ∨ Landing setting program n shape)
    (hlast : SafeAt setting program n last
      { shape with operands := Operand.entries entries.length ++ shape.operands }) :
    SafeAt setting program n base shape := by
  induction entries generalizing S base shape with
  | nil =>
    cases h
    exact hlast
  | cons entry rest ih =>
    rw [List.forall_mem_cons] at hes hjumps
    cases h with
    | cons hkey hpool hhead htail =>
      have hgrows := htail.grows fun _ _ _ _ _ _ => CodeOf.grows
      refine SafeAt.next hkey (.key hpool) ?_
      refine hes.1 _ _ _ _ _ _ hhead (hroom.of_grows hgrows)
        (hjumps.1.imp_right (·.push .key)) ?_
      refine ih hes.2 htail hroom
        (fun e he => (hjumps.2 e he).imp_right fun h => (h.push .key).push .any) ?_
      rw [List.length_cons, Operand.entries, List.append_assoc] at hlast
      exact hlast

/-- The code of a loop is safe if that of its parts is. Running on from its beginning is shown by
induction on the number of instructions: one of them is used up before the code of the parts. -/
theorem safeCode_loop {test : Option Expr} {body : Expr}
    (htest : ∀ e ∈ test, SafeCode setting program e) (hbody : SafeCode setting program body) :
    SafeCode setting program (.loop test body) := by
  rintro S base last S' n shape hcode hroom - hlast
  cases hcode with
  | @loop _ S₁ _ _ mid last _ _ start done i henter htick hcodeTest hcodeBody hpop hback hexit
      hnull hpool hstart hdone =>
    let record : LoopRecord :=
      ⟨shape.operands.length, shape.sizes.length, start.toNat, done.toNat⟩
    let inner : Shape := { shape with loops := record :: shape.loops }
    have hunwound : inner.unwound record = inner := by
      simp [Shape.unwound, inner, record]
    have hleave : SafeAt setting program n done.toNat inner := by
      rw [hdone]
      exact .next hexit .closeLoop (.next hnull (.value hpool) hlast)
    have hround (k : Nat) (hk : k ≤ n) : SafeAt setting program k start.toNat inner := by
      induction k with
      | zero => exact .zero
      | succ k ih =>
        have hagain := ih (by omega)
        have hleave := hleave.mono (show k ≤ n by omega)
        have hlanding : Landing setting program k inner :=
          ⟨record, shape.loops, rfl, Nat.le_refl _, Nat.le_refl _,
            by rw [hunwound]; exact hagain, by rw [hunwound]; exact hleave⟩
        have hinside : SafeAt setting program k mid inner :=
          hbody _ _ _ _ _ _ hcodeBody hroom (.inr hlanding)
            (.next hpop (Ensures.pop.bind fun _ _ hm => hm) (.jump hback hagain))
        have hbegin : SafeAt setting program k (base + 2) inner := by
          cases hcodeTest with
          | none => exact hinside
          | some hcodeTest hif =>
            exact htest _ rfl _ _ _ _ _ _ hcodeTest (hroom.of_grows hcodeBody.grows)
              (.inr hlanding) (.jumpIfFalse hif hinside hleave)
        rw [hstart]
        exact .step htick ((Ensures.ofRun (Run.checkpoint_blameless _)).weaken
          fun _ _ hm => ⟨_, _, hm, hbegin⟩)
    refine .next henter (.openLoop start.toNat done.toNat) ?_
    rw [← hstart]
    exact hround n (Nat.le_refl n)

/-- The code of a block is safe if that of its items is. -/
theorem safeCode_block {items : List Expr} (hitems : ∀ e ∈ items, SafeCode setting program e) :
    SafeCode setting program (.block items) := by
  intro S base last S' n shape hcode hroom hjumps hlast
  have hjumps (e : Expr) (he : e ∈ items) := jumps_part hjumps (by simp) he
  cases hcode with
  | emptyBlock henter hnull hpool hexit =>
    exact .next henter (.enterScope _) (.next hnull (.value hpool)
      (.next hexit (@Ensures.closeFrame _ (shape.push .any) _ _) hlast))
  | @block _ S₁ S₂ _ mid last e rest slots henter hhead htail hexit hslots =>
    rw [List.forall_mem_cons] at hitems hjumps
    have hgrows := htail.grows fun _ _ _ _ _ _ => CodeOf.grows
    have hnumbered := (hhead.grows.trans hgrows).numbered (Scopes.numbered_push S)
    have hinner := (hhead.grows.trans hgrows).isGlobal
    have hroom : Roomy S₂ (slots.toNat :: shape.sizes) := by
      rw [hslots]
      exact hroom.of_block hinner hnumbered
    refine .next henter (.enterScope _) ?_
    refine hitems.1 _ _ _ _ _ { shape with sizes := slots.toNat :: shape.sizes } hhead
      (hroom.of_grows hgrows) (hjumps.1.imp_right (·.frame _)) ?_
    refine htail.safe hitems.2 hroom (fun e he => (hjumps.2 e he).imp_right (·.frame _)) ?_
    exact .next hexit (@Ensures.closeFrame _ (shape.push .any) _ _) hlast

/-- The code of every expression is safe. -/
theorem safeCode (e : Expr) : SafeCode setting program e := by
  induction e with
  | block items ih => exact safeCode_block ih
  | loop test body ihTest ihBody => exact safeCode_loop ihTest ihBody
  | literal value =>
    intro S base last S' n shape hcode hroom hjumps hlast
    cases hcode with
    | literal hop hpool => exact .next hop (.value hpool) hlast
  | ref name =>
    intro S base last S' n shape hcode hroom hjumps hlast
    cases hcode with
    | ref hloads hop => exact .next hop (.loads hloads hroom) hlast
  | jump j =>
    intro S base last S' n shape hcode hroom hjumps hlast
    cases hcode with
    | jump hop =>
      rcases hjumps with henclosed | hlanding
      · exact absurd henclosed (Expr.not_jumpsEnclosed_jump j)
      · exact hlanding.jump j hop
  | unary op operand ih =>
    intro S base last S' n shape hcode hroom hjumps hlast
    cases hcode with
    | unary hoperand hop =>
      exact ih _ _ _ _ _ _ hoperand hroom (jumps_part hjumps (by simp) (by simp [Expr.children]))
        (.next hop (.unary op) hlast)
  | property target name ih =>
    intro S base last S' n shape hcode hroom hjumps hlast
    cases hcode with
    | property htarget hpool hop =>
      exact ih _ _ _ _ _ _ htarget hroom (jumps_part hjumps (by simp) (by simp [Expr.children]))
        (.next hop (.getProperty hpool) hlast)
  | assign name value ih =>
    intro S base last S' n shape hcode hroom hjumps hlast
    cases hcode with
    | assign hvalue hassigns hop =>
      exact ih _ _ _ _ _ _ hvalue hroom (jumps_part hjumps (by simp) (by simp [Expr.children]))
        (.next hop (.assigns hassigns hroom) hlast)
  | declare name value ih =>
    intro S base last S' n shape hcode hroom hjumps hlast
    cases hcode with
    | declare hvalue hdeclares hop =>
      exact ih _ _ _ _ _ _ hvalue (hroom.of_grows hdeclares.grows)
        (jumps_part hjumps (by simp) (by simp [Expr.children]))
        (.next hop (.declares hdeclares hroom) hlast)
  | index target position ihTarget ihPosition =>
    intro S base last S' n shape hcode hroom hjumps hlast
    have hjumps (part : Expr) (hpart : part ∈ [target, position]) :=
      jumps_part hjumps (by simp) hpart
    rw [List.forall_mem_cons, List.forall_mem_singleton] at hjumps
    cases hcode with
    | index htarget hposition hop =>
      refine ihTarget _ _ _ _ _ _ htarget (hroom.of_grows hposition.grows) hjumps.1 ?_
      exact ihPosition _ _ _ _ _ _ hposition hroom (hjumps.2.imp_right (·.push .any))
        (.next hop .getIndex hlast)
  | binary left op right ihLeft ihRight =>
    intro S base last S' n shape hcode hroom hjumps hlast
    have hjumps (part : Expr) (hpart : part ∈ [left, right]) :=
      jumps_part hjumps (by simp) hpart
    rw [List.forall_mem_cons, List.forall_mem_singleton] at hjumps
    cases hcode with
    | binary _ hleft hright hop =>
      refine ihLeft _ _ _ _ _ _ hleft (hroom.of_grows hright.grows) hjumps.1 ?_
      exact ihRight _ _ _ _ _ _ hright hroom (hjumps.2.imp_right (·.push .any))
        (.next hop (.binary op) hlast)
    | logical _ hleft hshort hright hrequire hdone =>
      refine ihLeft _ _ _ _ _ _ hleft (hroom.of_grows hright.grows) hjumps.1 ?_
      refine .shortCircuit hshort ?_ (by rw [hdone]; exact hlast)
      exact ihRight _ _ _ _ _ _ hright hroom hjumps.2 (.next hrequire (.requireBool op) hlast)
  | cond test yes no ihTest ihYes ihNo =>
    intro S base last S' n shape hcode hroom hjumps hlast
    have hjumps (part : Expr) (hpart : part ∈ test :: yes :: no.toList) :=
      jumps_part hjumps (by simp) hpart
    rw [List.forall_mem_cons, List.forall_mem_cons] at hjumps
    obtain ⟨hjumpsTest, hjumpsYes, hjumpsNo⟩ := hjumps
    cases hcode with
    | @cond _ S₁ S₂ _ _ _ _ _ _ _ _ toElse toEnd htest hif hyes hjump hno hElse hEnd =>
      have hgrows : S₂.Grows S' ∧ SafeAt setting program n toElse.toNat shape := by
        rw [hElse]
        cases hno with
        | none hnull hpool => exact ⟨.refl _, .next hnull (.value hpool) hlast⟩
        | some hno =>
          exact ⟨hno.grows, ihNo _ rfl _ _ _ _ _ _ hno hroom (hjumpsNo _ (by simp)) hlast⟩
      have hroom := hroom.of_grows hgrows.1
      refine ihTest _ _ _ _ _ _ htest (hroom.of_grows hyes.grows) hjumpsTest ?_
      refine .jumpIfFalse hif ?_ hgrows.2
      exact ihYes _ _ _ _ _ _ hyes hroom hjumpsYes (.jump hjump (by rw [hEnd]; exact hlast))
  | call name args ih =>
    intro S base last S' n shape hcode hroom hjumps hlast
    cases hcode with
    | call hargs hpool hargc hop =>
      exact hargs.safe ih hroom (fun e he => jumps_part hjumps (by simp) he)
        (.next hop (.call hpool hargc) hlast)
  | array items ih =>
    intro S base last S' n shape hcode hroom hjumps hlast
    cases hcode with
    | array hitems hcount hop =>
      exact hitems.safe ih hroom (fun e he => jumps_part hjumps (by simp) he)
        (.next hop (.makeArray hcount) hlast)
  | object entries ih =>
    intro S base last S' n shape hcode hroom hjumps hlast
    cases hcode with
    | object hentries hcount hop =>
      exact hentries.safe ih hroom
        (fun entry he => jumps_part hjumps (by simp) (List.mem_map_of_mem he))
        (.next hop (.makeObject hcount) hlast)

/-- A program of statements without jumps out of loops is sound from its beginning on. -/
theorem CodeOfStatements.safe {es : List Expr}
    (h : CodeOfStatements program es program.code.size) (hjumps : ∀ e ∈ es, e.JumpsEnclosed) :
    SafeAt setting program n 0 ⟨[], [], []⟩ := by
  have hend : SafeAt setting program n program.code.size ⟨[.any], [], []⟩ := .atEnd
  generalize program.code.size = size at h hend
  cases h with
  | none hnull hpool => exact .next hnull (.value hpool) hend
  | @some S₁ S₂ mid _ e rest hhead htail =>
    rw [List.forall_mem_cons] at hjumps
    have hgrows := htail.grows fun _ _ _ _ _ _ => CodeOf.grows
    have hglobal : S₂ = .empty := (hhead.grows.trans hgrows).global rfl
    have hroom : Roomy S₂ [] := by
      rw [hglobal]
      exact ⟨.nil, rfl⟩
    refine safeCode e _ _ _ _ _ ⟨[], [], []⟩ hhead (hroom.of_grows hgrows) (.inl hjumps.1) ?_
    exact htail.safe (fun e _ => safeCode e) hroom (fun e he => .inl (hjumps.2 e he)) hend

end Code

/-- What is compiled from a script whose jumps lie in loops, as they do in every script that was
read from a text, is well formed: however it is run, it never turns out to be malformed, and if it
ends with a value then at the end of its code, with nothing else on the stack and with no frame and
no loop open. -/
theorem runProgram_sound {level : UInt8} {registry : Registry ι} {script : Script}
    {declared : Permissions} {program : Program}
    (hscript : script.JumpsEnclosed ∨ ∃ name source, parse name source = .ok script)
    (hcompile : compile level registry script declared = .ok program) (setting : Setting ι' σ)
    (allowance : Nat) (bindings : Table Value) (ledger : Ledger σ) :
    Sound program (runProgram setting allowance program bindings ledger) := by
  have hjumps : script.JumpsEnclosed := by
    rcases hscript with hjumps | ⟨name, source, hparse⟩
    · exact hjumps
    · exact parse_jumpsEnclosed hparse
  rw [compile] at hcompile
  rcases hprogram : compileScript level registry script declared with fault | compiled
  · rw [hprogram] at hcompile
    cases hcompile
  · rw [hprogram] at hcompile
    obtain rfl : compiled = program := Except.ok.inj hcompile
    have hcode := (compileScript_eq_ok hprogram).2
    have hsource : (if level = 0 then script else script.fold).JumpsEnclosed := by
      split_ifs
      · exact hjumps
      · exact hjumps.fold
    have hsafe : SafeAt setting compiled allowance 0 ⟨[], [], []⟩ :=
      hcode.safe (List.forall_mem_map.mpr hsource)
    exact hsafe allowance (Nat.le_refl _) _ ⟨rfl, .nil, rfl, rfl⟩

/-- A script that no text gives: a loop that is left from its test, and goes on from within an array
some of whose items are bound to names. -/
def Script.restless : Script where
  name := "script"
  statements := [{
    expression := .loop (some (.block [.jump .break_]))
      (.array [.declare "x" (.literal .null), .block [.declare "y" (.ref "x"), .jump .continue_]])
    location := none }]
  source := ""
  metadata := []

theorem runProgram_sound_restless :
    ∃ program, compile 1 (.empty : Registry Empty) .restless .none = .ok program ∧
      ∀ allowance, Sound program (runProgram
        (⟨{}, ⟨.empty, fun i _ _ => i.elim⟩, .none, ""⟩ : Setting Empty Unit) allowance program []
        (.start false ())) := by
  have hcheck : (compile 1 (.empty : Registry Empty) .restless .none).toOption.any
      (fun _ => true) = true := by
    decide +kernel
  obtain ⟨program, hcompile, -⟩ := exists_ok_of_check hcheck
  refine ⟨program, hcompile, fun allowance => ?_⟩
  refine runProgram_sound (.inl fun s hs => ?_) hcompile _ allowance [] _
  obtain rfl := List.mem_singleton.mp hs
  exact .loop

end Covenant
