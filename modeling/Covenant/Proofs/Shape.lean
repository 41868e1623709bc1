import Covenant.Proofs.Audit
import Covenant.Proofs.Constructs
import Covenant.Proofs.Faults
import Mathlib.Data.List.Forall2

/-!
# Shapes of machines

What an instruction needs is there or not by the shape of the machine alone: how many operands are
on the stack and which of them are keys, how many slots each open frame has, and what is noted about
the open loops. Values do not matter. An instruction that finds what it needs never reports that the
program is malformed, and the shape it leaves is known beforehand.

## Main definitions

* `Error.Malformed` : the errors that blame the program.
* `Operand`, `Shape` : what is known of a machine at an offset.
* `Machine.Fits` : a machine of a given shape before the instruction at an offset.
* `Ensures` : an execution that leads to machines as described, or fails for another reason than the
  program.

## Main results

* `Run.call_blameless` : no call blames the program.
* `Machine.Ensures.push`, `Machine.Ensures.pop`, … : what each operation of the machine needs and
  what it leaves.
-/

namespace Covenant

variable {ι σ α β : Type}

/-- The error blames the program. -/
def Error.Malformed : Error → Prop
  | .compile _ => True
  | _ => False

/-! ### Operations on values -/

/-- A result that does not blame the program if it is a failure. -/
def Regular : Except Error α → Prop
  | .ok _ => True
  | .error e => ¬ e.Malformed

/-- What fails because of values does not blame the program. -/
theorem FailsByValues.regular {x : Except Error α} (h : FailsByValues x) : Regular x := by
  rcases x with (_ | _) | _ <;> first | exact h.elim | exact id | trivial

/-! ### Calls -/

/-- A result that does not blame the program if it is a failure. -/
def Blameless {τ : Type} : EStateM.Result Error τ α → Prop
  | .ok _ _ => True
  | .error e _ => ¬ e.Malformed

/-- What an operation fails with does not blame the program. -/
theorem FailsOperationally.blameless {τ : Type} {r : EStateM.Result Error τ α}
    (h : FailsOperationally r) : Blameless r := by
  rcases r with _ | ⟨_ | _, _⟩ <;> first | exact h.elim | exact id | trivial

namespace Run

/-- No call blames the program. -/
theorem call_blameless (setting : Setting ι σ) (name : String) (args : List Value) (l : Ledger σ) :
    Blameless (call setting name args l) :=
  (call_operational setting name args l).blameless

theorem charge_blameless (limits : Limits) (l : Ledger σ) : Blameless (charge limits l) :=
  (charge_operational limits l).blameless

theorem checkpoint_blameless (limits : Limits) (l : Ledger σ) : Blameless (checkpoint limits l) :=
  (checkpoint_operational limits l).blameless

theorem checkScopeDepth_blameless (limits : Limits) (depth : Nat) (l : Ledger σ) :
    Blameless (checkScopeDepth limits depth l) :=
  (checkScopeDepth_operational limits depth l).blameless

end Run

/-! ### Shapes -/

/-- What is known of a value on the stack. -/
inductive Operand where
  /-- Nothing. -/
  | any
  /-- That it is a string, the key of a field. -/
  | key

/-- The value is as known. -/
def Operand.Admits : Operand → Value → Prop
  | .any, _ => True
  | .key, v => ∃ text, v = .string text

/-- What is known of a machine before an instruction. -/
structure Shape where
  /-- The operands on the stack, the top first. -/
  operands : List Operand
  /-- How many slots the open frames have, the innermost first. -/
  sizes : List Nat
  /-- The open loops, the innermost first. -/
  loops : List LoopRecord

namespace Shape

/-- One more operand. -/
def push (shape : Shape) (o : Operand) : Shape :=
  { shape with operands := o :: shape.operands }

/-- The slot exists, so many frames outward. -/
def HasSlot (shape : Shape) (depth slot : Nat) : Prop :=
  ∃ size, shape.sizes[depth]? = some size ∧ slot < size

/-- The shape after a jump to a loop, without all that has come since the loop began. -/
def unwound (shape : Shape) (r : LoopRecord) : Shape :=
  { shape with
    operands := shape.operands.drop (shape.operands.length - r.stackSize)
    sizes := shape.sizes.drop (shape.sizes.length - r.frameCount) }

end Shape

/-- A key and a value for each of so many entries, the last one on top. -/
def Operand.entries : Nat → List Operand
  | 0 => []
  | n + 1 => entries n ++ [.any, .key]

theorem Operand.length_entries (n : Nat) : (entries n).length = n * 2 := by
  induction n with
  | zero => rfl
  | succ n ih => rw [entries, List.length_append, ih, Nat.succ_mul, List.length_cons,
      List.length_singleton]

/-- Keys and values that alternate make an object. -/
theorem objectOf_regular {n : Nat} {flat : List Value} (done : Table Value)
    (h : List.Forall₂ Operand.Admits (Operand.entries n) flat.reverse) :
    Regular (Machine.objectOf done flat) := by
  induction n generalizing done flat with
  | zero =>
    have hflat : flat = [] := by simpa [Operand.entries] using h
    rw [hflat]
    trivial
  | succ n ih =>
    rw [← List.forall₂_reverse_iff, List.reverse_reverse, Operand.entries,
      List.reverse_append] at h
    obtain _ | ⟨⟨key, rfl⟩, _ | ⟨-, hrest⟩⟩ := h
    have hrest : List.Forall₂ Operand.Admits (Operand.entries n).reverse _ := hrest
    rw [← List.forall₂_reverse_iff, List.reverse_reverse] at hrest
    rw [Machine.objectOf]
    exact ih _ hrest

namespace Machine

/-- The machine has the shape and stands before the instruction at the offset. -/
structure Fits (shape : Shape) (offset : Nat) (m : Machine σ) : Prop where
  pc : m.pc = offset
  stack : List.Forall₂ Operand.Admits shape.operands m.stack
  frames : m.frames.map Array.size = shape.sizes
  loops : m.loops = shape.loops

/-- From every machine as described first, the execution leads to one as described second, or fails
for another reason than the program. -/
def Ensures (P : Machine σ → Prop) (x : Exec σ α) (Q : α → Machine σ → Prop) : Prop :=
  ∀ m, P m → match x m with
    | .ok a m' => Q a m'
    | .error e _ => ¬ e.Malformed

namespace Ensures

variable {P : Machine σ → Prop} {Q : α → Machine σ → Prop} {R : β → Machine σ → Prop}
  {shape : Shape} {offset : Nat}

theorem bind {x : Exec σ α} {f : α → Exec σ β} (hx : Ensures P x Q)
    (hf : ∀ a, Ensures (Q a) (f a) R) : Ensures P (x >>= f) R := by
  intro m hm
  have h := hx m hm
  rcases hr : x m with ⟨a, m'⟩ | ⟨e, m'⟩ <;> rw [hr] at h
  · rw [bind_of_ok hr]
    exact hf a m' h
  · rw [bind_of_error hr]
    exact h

theorem weaken {Q' : α → Machine σ → Prop} {x : Exec σ α} (hx : Ensures P x Q)
    (hQ : ∀ a m, Q a m → Q' a m) : Ensures P x Q' := by
  intro m hm
  have h := hx m hm
  rcases hr : x m with ⟨a, m'⟩ | ⟨e, m'⟩ <;> rw [hr] at h
  · exact hQ a m' h
  · exact h

theorem of_and {A : Prop} {x : Exec σ α} (hx : A → Ensures P x Q) :
    Ensures (fun m => A ∧ P m) x Q :=
  fun m hm => hx hm.1 m hm.2

/-- What is computed beside the machine leaves it as it is. -/
theorem ofExcept {r : Except Error α} (hr : Regular r) :
    Ensures P (ofExcept r) fun _ => P := by
  intro m hm
  rcases r with e | a
  · exact hr
  · exact hm

/-- What happens to the ledger leaves the shape as it is. -/
theorem ofRun {x : Run σ α} (hx : ∀ l, Blameless (x l)) :
    Ensures (Fits shape offset) (ofRun x) fun _ => Fits shape offset := by
  rintro ⟨pc, stack, frames, globals, loops, ledger⟩ ⟨hpc, hstack, hframes, hloops⟩
  have h := hx ledger
  simp only [Machine.ofRun]
  rcases hr : x ledger with ⟨a, l⟩ | ⟨e, l⟩ <;> rw [hr] at h
  · exact ⟨hpc, hstack, hframes, hloops⟩
  · exact h

/-! ### The stack -/

theorem push {o : Operand} {v : Value} (ho : o.Admits v) :
    Ensures (Fits shape offset) (push v : Exec σ Unit) fun _ => Fits (shape.push o) offset :=
  fun _ hm => ⟨hm.pc, .cons ho hm.stack, hm.frames, hm.loops⟩

theorem pushAny (v : Value) :
    Ensures (Fits shape offset) (Machine.push v : Exec σ Unit) fun _ =>
      Fits (shape.push .any) offset :=
  push trivial

theorem pop {o : Operand} :
    Ensures (Fits (shape.push o) offset) (pop : Exec σ Value) fun _ => Fits shape offset := by
  rintro ⟨pc, stack, frames, globals, loops, ledger⟩ ⟨hpc, hstack, hframes, hloops⟩
  obtain _ | ⟨-, hrest⟩ := hstack
  exact ⟨hpc, hrest, hframes, hloops⟩

theorem peek {o : Operand} :
    Ensures (Fits (shape.push o) offset) (peek : Exec σ Value) fun _ =>
      Fits (shape.push o) offset := by
  rintro ⟨pc, stack, frames, globals, loops, ledger⟩ ⟨hpc, hstack, hframes, hloops⟩
  obtain _ | ⟨hv, hrest⟩ := hstack
  exact ⟨hpc, .cons hv hrest, hframes, hloops⟩

/-- As many operands as there are on top are taken, in the order in which they were put there. -/
theorem popMany {tops : List Operand} {count : Nat} (hcount : count = tops.length) :
    Ensures (Fits { shape with operands := tops ++ shape.operands } offset)
      (popMany count : Exec σ (List Value)) fun values m =>
        List.Forall₂ Operand.Admits tops values.reverse ∧ Fits shape offset m := by
  rintro ⟨pc, stack, frames, globals, loops, ledger⟩ ⟨hpc, hstack, hframes, hloops⟩
  obtain ⟨top, rest, htop, hrest, rfl⟩ : ∃ top rest, List.Forall₂ Operand.Admits tops top ∧
      List.Forall₂ Operand.Admits shape.operands rest ∧ top ++ rest = stack := by
    refine ⟨stack.take tops.length, stack.drop tops.length, ?_, ?_, List.take_append_drop _ _⟩
    · simpa using List.forall₂_take tops.length hstack
    · simpa using List.forall₂_drop tops.length hstack
  have htake : takeStack top.length [] (top ++ rest) = some (top.reverse ++ [], rest) :=
    takeStack_eq top []
  rw [← htop.length_eq, ← hcount] at htake
  simp only [Machine.popMany, htake, List.append_nil, List.reverse_reverse]
  exact ⟨htop, hpc, hrest, hframes, hloops⟩

/-! ### Offsets, slots and names -/

theorem jumpTo (target : Nat) :
    Ensures (Fits shape offset) (jumpTo target : Exec σ Unit) fun _ => Fits shape target :=
  fun _ hm => ⟨rfl, hm.stack, hm.frames, hm.loops⟩

theorem readSlot {depth slot : Nat} (hslot : shape.HasSlot depth slot) :
    Ensures (Fits shape offset) (readSlot depth slot : Exec σ Value) fun _ =>
      Fits shape offset := by
  intro m hm
  obtain ⟨size, hsize, hlt⟩ := hslot
  rw [← hm.frames, List.getElem?_map, Option.map_eq_some_iff] at hsize
  obtain ⟨frame, hframe, rfl⟩ := hsize
  rw [readSlot_apply, hframe]
  simp only [Array.getElem?_eq_getElem hlt]
  exact hm

theorem writeSlot {depth slot : Nat} (hslot : shape.HasSlot depth slot) (v : Value) :
    Ensures (Fits shape offset) (writeSlot depth slot v : Exec σ Unit) fun _ =>
      Fits shape offset := by
  rintro ⟨pc, stack, frames, globals, loops, ledger⟩ ⟨hpc, hstack, hframes, hloops⟩
  obtain ⟨size, hsize, hlt⟩ := hslot
  rw [← hframes, List.getElem?_map, Option.map_eq_some_iff] at hsize
  obtain ⟨frame, hframe, rfl⟩ := hsize
  have hframe : frames[depth]? = some frame := hframe
  simp only [Machine.writeSlot, hframe, hlt, if_true]
  refine ⟨hpc, hstack, ?_, hloops⟩
  rw [← hframes]
  apply List.ext_getElem?
  intro i
  rw [List.getElem?_map, List.getElem?_map, List.getElem?_modify]
  split_ifs
  · simp [Function.comp_def]
  · simp

theorem readGlobal (name : String) :
    Ensures (Fits shape offset) (readGlobal name : Exec σ Value) fun _ => Fits shape offset := by
  intro m hm
  rw [readGlobal_apply]
  cases m.globals[name]? with
  | some v => exact hm
  | none => exact id

theorem defineGlobal (name : String) (v : Value) :
    Ensures (Fits shape offset) (defineGlobal name v : Exec σ Unit) fun _ => Fits shape offset :=
  fun _ hm => ⟨hm.pc, hm.stack, hm.frames, hm.loops⟩

theorem writeGlobal (name : String) (v : Value) :
    Ensures (Fits shape offset) (writeGlobal name v : Exec σ Unit) fun _ => Fits shape offset := by
  intro m hm
  rw [writeGlobal_apply]
  split_ifs
  · exact defineGlobal name v m hm
  · exact id

/-! ### Frames and loops -/

theorem openFrame (slots : Nat) :
    Ensures (Fits shape offset) (openFrame slots : Exec σ Unit)
      fun _ => Fits { shape with sizes := slots :: shape.sizes } offset := by
  intro m hm
  refine ⟨hm.pc, hm.stack, ?_, hm.loops⟩
  rw [List.map_cons, Array.size_replicate, hm.frames]

theorem closeFrame {size : Nat} :
    Ensures (Fits { shape with sizes := size :: shape.sizes } offset) (closeFrame : Exec σ Unit)
      fun _ => Fits shape offset := by
  rintro ⟨pc, stack, frames, globals, loops, ledger⟩ ⟨hpc, hstack, hframes, hloops⟩
  rcases frames with _ | ⟨frame, rest⟩
  · cases hframes
  · exact ⟨hpc, hstack, (List.cons.inj hframes).2, hloops⟩

theorem openLoop (continueTarget breakTarget : Nat) :
    Ensures (Fits shape offset) (openLoop continueTarget breakTarget : Exec σ Unit)
      fun _ => Fits { shape with loops := ⟨shape.operands.length, shape.sizes.length,
        continueTarget, breakTarget⟩ :: shape.loops } offset := by
  intro m hm
  refine ⟨hm.pc, hm.stack, hm.frames, ?_⟩
  have hframes : m.frames.length = shape.sizes.length := by rw [← hm.frames, List.length_map]
  change LoopRecord.mk m.stack.length m.frames.length continueTarget breakTarget :: m.loops = _
  rw [← hm.stack.length_eq, hframes, hm.loops]

theorem closeLoop {r : LoopRecord} :
    Ensures (Fits { shape with loops := r :: shape.loops } offset) (closeLoop : Exec σ Unit)
      fun _ => Fits shape offset := by
  rintro ⟨pc, stack, frames, globals, loops, ledger⟩ ⟨hpc, hstack, hframes, hloops⟩
  obtain rfl : loops = r :: shape.loops := hloops
  exact ⟨hpc, hstack, hframes, rfl⟩

/-- A jump finds the innermost loop and drops what has come since it began. -/
theorem unwind {r : LoopRecord} {rest : List LoopRecord} (hloops : shape.loops = r :: rest) :
    Ensures (Fits shape offset) (unwind : Exec σ LoopRecord)
      fun found m => found = r ∧ Fits (shape.unwound r) offset m := by
  rintro ⟨pc, stack, frames, globals, loops, ledger⟩ ⟨hpc, hstack, hframes, hopen⟩
  obtain rfl : loops = r :: rest := hopen.trans hloops
  have hcount : frames.length = shape.sizes.length := by rw [← hframes, List.length_map]
  refine ⟨rfl, hpc, ?_, ?_, hloops.symm⟩
  · change List.Forall₂ _ _ (stack.drop (stack.length - r.stackSize))
    rw [← hstack.length_eq]
    exact List.forall₂_drop _ hstack
  · change (frames.drop (frames.length - r.frameCount)).map Array.size = _
    rw [List.map_drop, hframes, hcount]
    rfl

end Ensures

end Machine

end Covenant
