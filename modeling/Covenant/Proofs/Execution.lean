import Covenant.Program.Machine
import Covenant.Proofs.Computation

/-!
# Execution one instruction at a time

Of all that instructions do, only calls, checkpoints and the check of open frames involve the
ledger. Everything else happens beside it (`Aside`): it does the same with every other ledger and
changes none. A relation between executions that respects binding, what happens beside the ledger
and those three operations respects every instruction.

## Main definitions

* `Machine.withLedger` : a machine with another ledger.
* `Machine.Aside` : a pair of operations that do the same beside the ledger.
* `Machine.Compatible` : a relation between executions that respects what instructions are made of.

## Main results

* `Machine.Compatible.perform` : related operations make up related instructions.
* `Machine.execute_follows` : machines that follow each other in every instruction do so in a run.
* `Machine.execute_meets`, `Machine.execute_meets_at` : what every instruction keeps is kept in a
  run.
* `Machine.exists_step_of_execute_fail` : the instruction with which a run fails.
-/

namespace Covenant

/-- What a halt leaves behind: a failure as given, every other halt the invariant. -/
def Halt.Leaves {σ : Type} (P : Machine σ → Prop) (Q : Error → Machine σ → Prop) :
    Halt → Machine σ → Prop
  | .fail e, m => Q e m
  | .unfinished, m => P m

namespace Machine

variable {ι σ ι' σ' α β : Type}

/-- A machine with another ledger. -/
def withLedger (m : Machine σ) (l : Ledger σ') : Machine σ' :=
  ⟨m.pc, m.stack, m.frames, m.globals, m.loops, l⟩

theorem ofRun_of_ok {x : Run σ α} {m : Machine σ} {a : α} {l : Ledger σ}
    (h : x m.ledger = .ok a l) : ofRun x m = .ok a (m.withLedger l) := by
  simp only [ofRun, h]
  rfl

theorem ofRun_of_error {x : Run σ α} {m : Machine σ} {e : Error} {l : Ledger σ}
    (h : x m.ledger = .error e l) : ofRun x m = .error e (m.withLedger l) := by
  simp only [ofRun, h]
  rfl

/-! ### Operations that read the machine -/

theorem readSlot_apply (depth slot : Nat) (m : Machine σ) :
    readSlot depth slot m =
      match m.frames[depth]? with
      | none => .error (.compile .frameOutOfRange) m
      | some frame =>
        match frame[slot]? with
        | none => .error (.compile .slotOutOfRange) m
        | some value => .ok value m := by
  rw [readSlot, get_bind]
  cases m.frames[depth]? with
  | none => rfl
  | some frame =>
    dsimp only
    cases frame[slot]? <;> rfl

theorem readGlobal_apply (name : String) (m : Machine σ) :
    readGlobal name m =
      match m.globals[name]? with
      | some value => .ok value m
      | none => .error (.notDefined name) m := by
  rw [readGlobal, get_bind]
  cases m.globals[name]? <;> rfl

theorem writeGlobal_apply (name : String) (value : Value) (m : Machine σ) :
    writeGlobal name value m =
      if m.globals.contains name then defineGlobal name value m
      else .error (.notDefined name) m := by
  rw [writeGlobal, get_bind]
  split <;> rfl

/-! ### What happens beside the ledger -/

/-- The second operation does with every ledger what the first one does, which leaves its ledger as
it is. -/
structure Aside (x : Exec σ α) (x' : Exec σ' α) : Prop where
  follows (l : Ledger σ') : Follows (withLedger · l) x x'
  kept (m : Machine σ) : (reached (x m)).ledger = m.ledger

namespace Aside

theorem pure (a : α) : Aside (pure a : Exec σ α) (pure a : Exec σ' α) :=
  ⟨fun _ => .pure a, fun _ => rfl⟩

theorem bind {x : Exec σ α} {x' : Exec σ' α} {f : α → Exec σ β} {f' : α → Exec σ' β}
    (hx : Aside x x') (hf : ∀ a, Aside (f a) (f' a)) : Aside (x >>= f) (x' >>= f') where
  follows l := (hx.follows l).bind fun a => (hf a).follows l
  kept m := by
    have h := hx.kept m
    cases hr : x m with
    | ok a m₁ =>
      rw [hr] at h
      rw [bind_of_ok hr, (hf a).kept]
      exact h
    | error e m₁ =>
      rw [hr] at h
      rw [bind_of_error hr]
      exact h

/-- On machines with ledgers of one kind, the two operations are the same. -/
theorem eq {x y : Exec σ α} (h : Aside x y) : y = x := by
  funext m
  have hfollows : y m = mapState (withLedger · m.ledger) (x m) := h.follows m.ledger m
  have hkept := h.kept m
  rw [hfollows]
  cases hr : x m <;> rw [hr] at hkept <;> simp only [mapState, ← hkept, reached] <;> rfl

theorem ofExcept (result : Except Error α) :
    Aside (ofExcept result : Exec σ α) (ofExcept result : Exec σ' α) := by
  cases result <;> exact ⟨fun _ _ => rfl, fun _ => rfl⟩

theorem push (value : Value) : Aside (push value : Exec σ Unit) (push value : Exec σ' Unit) :=
  ⟨fun _ _ => rfl, fun _ => rfl⟩

theorem pop : Aside (pop : Exec σ Value) (pop : Exec σ' Value) := by
  constructor
  · rintro l ⟨pc, stack, frames, globals, loops, ledger⟩
    cases stack <;> rfl
  · rintro ⟨pc, stack, frames, globals, loops, ledger⟩
    cases stack <;> rfl

theorem peek : Aside (peek : Exec σ Value) (peek : Exec σ' Value) := by
  constructor
  · rintro l ⟨pc, stack, frames, globals, loops, ledger⟩
    cases stack <;> rfl
  · rintro ⟨pc, stack, frames, globals, loops, ledger⟩
    cases stack <;> rfl

theorem popMany (count : Nat) :
    Aside (popMany count : Exec σ (List Value)) (popMany count : Exec σ' (List Value)) := by
  constructor
  · rintro l ⟨pc, stack, frames, globals, loops, ledger⟩
    unfold Machine.popMany
    cases h : takeStack count [] stack <;> simp [withLedger, h]
  · rintro ⟨pc, stack, frames, globals, loops, ledger⟩
    unfold Machine.popMany
    cases h : takeStack count [] stack <;> simp [h]

theorem jumpTo (target : Nat) :
    Aside (jumpTo target : Exec σ Unit) (jumpTo target : Exec σ' Unit) :=
  ⟨fun _ _ => rfl, fun _ => rfl⟩

theorem readSlot (depth slot : Nat) :
    Aside (readSlot depth slot : Exec σ Value) (readSlot depth slot : Exec σ' Value) := by
  constructor
  · intro l m
    simp only [readSlot_apply, withLedger]
    split
    · rfl
    · split <;> rfl
  · intro m
    rw [readSlot_apply]
    split
    · rfl
    · split <;> rfl

theorem writeSlot (depth slot : Nat) (value : Value) :
    Aside (writeSlot depth slot value : Exec σ Unit)
      (writeSlot depth slot value : Exec σ' Unit) := by
  constructor
  · rintro l ⟨pc, stack, frames, globals, loops, ledger⟩
    simp only [Machine.writeSlot, withLedger]
    split
    · rfl
    · split <;> rfl
  · rintro ⟨pc, stack, frames, globals, loops, ledger⟩
    simp only [Machine.writeSlot]
    split
    · rfl
    · split <;> rfl

theorem readGlobal (name : String) :
    Aside (readGlobal name : Exec σ Value) (readGlobal name : Exec σ' Value) := by
  constructor
  · intro l m
    simp only [readGlobal_apply, withLedger]
    split <;> rfl
  · intro m
    rw [readGlobal_apply]
    split <;> rfl

theorem defineGlobal (name : String) (value : Value) :
    Aside (defineGlobal name value : Exec σ Unit) (defineGlobal name value : Exec σ' Unit) :=
  ⟨fun _ _ => rfl, fun _ => rfl⟩

theorem writeGlobal (name : String) (value : Value) :
    Aside (writeGlobal name value : Exec σ Unit) (writeGlobal name value : Exec σ' Unit) := by
  constructor
  · intro l m
    simp only [writeGlobal_apply, withLedger]
    split <;> rfl
  · intro m
    rw [writeGlobal_apply]
    split <;> rfl

theorem openFrame (slots : Nat) :
    Aside (openFrame slots : Exec σ Unit) (openFrame slots : Exec σ' Unit) :=
  ⟨fun _ _ => rfl, fun _ => rfl⟩

theorem closeFrame : Aside (closeFrame : Exec σ Unit) (closeFrame : Exec σ' Unit) := by
  constructor
  · rintro l ⟨pc, stack, frames, globals, loops, ledger⟩
    cases frames <;> rfl
  · rintro ⟨pc, stack, frames, globals, loops, ledger⟩
    cases frames <;> rfl

theorem openLoop (continueTarget breakTarget : Nat) :
    Aside (openLoop continueTarget breakTarget : Exec σ Unit)
      (openLoop continueTarget breakTarget : Exec σ' Unit) :=
  ⟨fun _ _ => rfl, fun _ => rfl⟩

theorem closeLoop : Aside (closeLoop : Exec σ Unit) (closeLoop : Exec σ' Unit) := by
  constructor
  · rintro l ⟨pc, stack, frames, globals, loops, ledger⟩
    cases loops <;> rfl
  · rintro ⟨pc, stack, frames, globals, loops, ledger⟩
    cases loops <;> rfl

theorem unwind : Aside (unwind : Exec σ LoopRecord) (unwind : Exec σ' LoopRecord) := by
  constructor
  · rintro l ⟨pc, stack, frames, globals, loops, ledger⟩
    cases loops <;> rfl
  · rintro ⟨pc, stack, frames, globals, loops, ledger⟩
    cases loops <;> rfl

end Aside

/-! ### Instructions -/

/-- The check that no more frames are open than the limit allows, with the one to be opened and the
global one. -/
def checkFrames (limits : Limits) : Exec σ Unit := do
  ofRun (Run.checkScopeDepth limits ((← get).frames.length + 2))

/-- Goes to the next offset. -/
def advance : Exec σ Unit := do
  jumpTo ((← get).pc + 1)

theorem Aside.advance : Aside (advance : Exec σ Unit) (advance : Exec σ' Unit) :=
  ⟨fun _ _ => rfl, fun _ => rfl⟩

/-- A relation between executions under two settings that respects what instructions are made
of. -/
structure Compatible (setting : Setting ι σ) (setting' : Setting ι' σ')
    (R : (α : Type) → Exec σ α → Exec σ' α → Prop) : Prop where
  aside {α : Type} {x : Exec σ α} {x' : Exec σ' α} : Aside x x' → R α x x'
  bind {α β : Type} {x : Exec σ α} {x' : Exec σ' α} {f : α → Exec σ β} {f' : α → Exec σ' β} :
    R α x x' → (∀ a, R β (f a) (f' a)) → R β (x >>= f) (x' >>= f')
  call (name : String) (args : List Value) :
    R Value (ofRun (Run.call setting name args)) (ofRun (Run.call setting' name args))
  checkpoint :
    R Unit (ofRun (Run.checkpoint setting.limits)) (ofRun (Run.checkpoint setting'.limits))
  checkFrames : R Unit (checkFrames setting.limits) (checkFrames setting'.limits)

/-- Related operations make up related instructions. -/
theorem Compatible.perform {setting : Setting ι σ} {setting' : Setting ι' σ'}
    {R : (α : Type) → Exec σ α → Exec σ' α → Prop} (h : Compatible setting setting' R)
    (program : Program) (op : Op) :
    R Unit (perform setting program op) (perform setting' program op) := by
  cases op with
  | constant index => exact h.aside (.bind (.ofExcept _) fun _ => .push _)
  | loadLocal depth slot => exact h.aside (.bind (.readSlot _ _) fun _ => .push _)
  | storeLocal depth slot => exact h.aside (.bind .peek fun _ => .writeSlot _ _ _)
  | loadName index =>
    exact h.aside (.bind (.ofExcept _) fun _ => .bind (.readGlobal _) fun _ => .push _)
  | storeName index =>
    exact h.aside (.bind (.ofExcept _) fun _ => .bind .peek fun _ => .writeGlobal _ _)
  | defineName index =>
    exact h.aside (.bind (.ofExcept _) fun _ => .bind .peek fun _ => .defineGlobal _ _)
  | binary op =>
    exact h.aside (.bind .pop fun _ => .bind .pop fun _ => .bind (.ofExcept _) fun _ => .push _)
  | unary op => exact h.aside (.bind .pop fun _ => .bind (.ofExcept _) fun _ => .push _)
  | shortCircuit op target =>
    refine h.aside (.bind .peek fun _ => .bind (.ofExcept _) fun left => ?_)
    cases op.decides left with
    | true => exact .jumpTo _
    | false => exact .bind .pop fun _ => .pure _
  | requireBool op => exact h.aside (.bind .peek fun _ => .bind (.ofExcept _) fun _ => .pure _)
  | call name argc =>
    exact h.bind (h.aside (.ofExcept _)) fun _ => h.bind (h.aside (.popMany _)) fun _ =>
      h.bind (h.call _ _) fun _ => h.aside (.push _)
  | makeArray count => exact h.aside (.bind (.popMany _) fun _ => .push _)
  | makeObject count =>
    exact h.aside (.bind (.popMany _) fun _ => .bind (.ofExcept _) fun _ => .push _)
  | getProperty index =>
    exact h.aside (.bind (.ofExcept _) fun _ => .bind .pop fun _ => .bind (.ofExcept _) fun _ =>
      .push _)
  | getIndex =>
    exact h.aside (.bind .pop fun _ => .bind .pop fun _ => .bind (.ofExcept _) fun _ => .push _)
  | jump target => exact h.aside (.jumpTo _)
  | jumpIfFalse target =>
    refine h.aside (.bind .pop fun _ => .bind (.ofExcept _) fun flag => ?_)
    cases flag with
    | true => exact .pure _
    | false => exact .jumpTo _
  | pop => exact h.aside (.bind .pop fun _ => .pure _)
  | enterScope slots =>
    exact h.bind h.checkpoint fun _ => h.bind h.checkFrames fun _ => h.aside (.openFrame _)
  | exitScope => exact h.aside .closeFrame
  | loopEnter continueTarget breakTarget => exact h.aside (.openLoop _ _)
  | loopExit => exact h.aside .closeLoop
  | break_ => exact h.aside (.bind .unwind fun _ => .jumpTo _)
  | continue_ => exact h.aside (.bind .unwind fun _ => .jumpTo _)
  | tick => exact h.checkpoint

/-- An instruction is the charge of a step, the way to the next offset and the effect. -/
theorem step_eq (setting : Setting ι σ) (program : Program) (op : Op) :
    step setting program op =
      (ofRun (Run.charge setting.limits) >>= fun _ => advance >>= fun _ =>
        perform setting program op) := by
  simp only [step, advance, bind_assoc]

/-! ### Runs -/

section Runs

variable {setting : Setting ι σ} {setting' : Setting ι' σ'} {program : Program}

/-- Machines that follow each other in every instruction do so in a run. -/
theorem execute_follows {f : Machine σ → Machine σ'} (hpc : ∀ m, (f m).pc = m.pc)
    (hstack : ∀ m, (f m).stack = m.stack)
    (hstep : ∀ op, Follows f (step setting program op) (step setting' program op)) (n : Nat)
    (m : Machine σ) :
    execute setting' program n (f m) = mapState f (execute setting program n m) := by
  induction n generalizing m with
  | zero => rfl
  | succ n ih =>
    simp only [execute, hpc]
    cases program.code[m.pc]? with
    | none => simp only [hstack, mapState_ok]
    | some op =>
      dsimp only
      rw [hstep op m]
      cases step setting program op m with
      | ok _ m₁ => exact ih m₁
      | error e m₁ => rfl

/-- What the instructions of a program keep, each where it stands, is kept in a run. -/
theorem execute_meets_at {P : Machine σ → Prop} {Q : Error → Machine σ → Prop}
    (hstep : ∀ m op, program.code[m.pc]? = some op → P m → Meets P Q (step setting program op m))
    (n : Nat) (m : Machine σ) (hm : P m) :
    Meets P (Halt.Leaves P Q) (execute setting program n m) := by
  induction n generalizing m with
  | zero => exact hm
  | succ n ih =>
    simp only [execute]
    cases hop : program.code[m.pc]? with
    | none => exact hm
    | some op =>
      dsimp only
      have h := hstep m op hop hm
      cases hr : step setting program op m with
      | ok _ m₁ =>
        rw [hr] at h
        exact ih m₁ h
      | error e m₁ =>
        rw [hr] at h
        exact h

/-- What every instruction keeps is kept in a run. -/
theorem execute_meets {P : Machine σ → Prop} {Q : Error → Machine σ → Prop}
    (hstep : ∀ op, Keeps P Q (step setting program op)) (n : Nat) (m : Machine σ) (hm : P m) :
    Meets P (Halt.Leaves P Q) (execute setting program n m) :=
  execute_meets_at (fun m op _ => hstep op m) n m hm

/-- A run that fails gets to an instruction that fails. -/
theorem exists_step_of_execute_fail {n : Nat} {m m' : Machine σ} {e : Error}
    (h : execute setting program n m = .error (.fail e) m') :
    ∃ k before op, execute setting program k m = .error .unfinished before ∧
      program.code[before.pc]? = some op ∧ step setting program op before = .error e m' := by
  induction n generalizing m with
  | zero => cases h
  | succ n ih =>
    simp only [execute] at h
    cases hop : program.code[m.pc]? with
    | none =>
      rw [hop] at h
      cases h
    | some op =>
      rw [hop] at h
      dsimp only at h
      cases hr : step setting program op m with
      | ok _ m₁ =>
        rw [hr] at h
        obtain ⟨k, before, op', hk, hbefore, hstep⟩ := ih h
        refine ⟨k + 1, before, op', ?_, hbefore, hstep⟩
        simp only [execute, hop, hr, hk]
      | error e' m₁ =>
        rw [hr] at h
        cases h
        exact ⟨0, m, op, rfl, hop, hr⟩

end Runs

end Machine

end Covenant
