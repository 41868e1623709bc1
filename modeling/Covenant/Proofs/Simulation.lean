import Covenant.Proofs.Counter
import Covenant.Proofs.Jumps
import Covenant.Proofs.Slots

/-!
# A machine that follows an evaluation

How an evaluation ends is met by a machine that executes instructions (`Answers`): it reaches a
state that belongs to the value, or to the jump taken, or it fails at an instruction with the same
error. An evaluation that uses up its rounds is met by as many instructions at least. No limit of
steps is in force here, so an instruction costs nothing but being counted.

The code of an expression computes an evaluation (`Computes`) if it answers it from every state in
which the machine stands before the code, ending behind it with the value on top of the stack. What
constructs are made of is computed by what their code is made of.

## Main definitions

* `Error.plain` : an error, whichever construct asked for a truth value.
* `Steps`, `Stops` : executing so many instructions, and failing at one.
* `Answers` : what a machine does about the result of an evaluation.
* `Stands` : a machine before or behind code, and the world that belongs to it.
* `Site`, `Jumped` : a loop around the code, and a machine that has jumped to it.
* `Computes` : code that computes an evaluation.
* `Translates` : an expression whose code computes an evaluation.
-/

namespace Covenant

variable {ι σ α β : Type}

/-- An error, whichever construct asked for a truth value: a machine does not tell tests of choices
from those of repetitions. -/
def Error.plain : Error → Error
  | .type (.needsBoolean context found) =>
    if context = "if condition" ∨ context = "loop condition" then
      .type (.needsBoolean "condition" found)
    else .type (.needsBoolean context found)
  | e => e

/-! ### Instructions -/

/-- The machine at the effect of its next instruction, which is counted. -/
def Machine.next (m : Machine σ) : Machine σ :=
  ⟨m.pc + 1, m.stack, m.frames, m.globals, m.loops, m.ledger.withSteps (m.ledger.steps + 1)⟩

section Instructions

variable (setting : Setting ι σ) (program : Program)

/-- So many instructions lead from one machine to another. -/
inductive Steps : Nat → Machine σ → Machine σ → Prop
  | refl (m : Machine σ) : Steps 0 m m
  | cons {n : Nat} {op : Op} {m m₁ m₂ : Machine σ} (hop : program.At m.pc op)
      (hstep : Machine.step setting program op m = .ok () m₁) (hrest : Steps n m₁ m₂) :
      Steps (n + 1) m m₂

/-- The next instruction fails. -/
def Stops (m : Machine σ) (e : Error) (m' : Machine σ) : Prop :=
  ∃ op, program.At m.pc op ∧ Machine.step setting program op m = .error e m'

variable {setting program}

theorem Steps.trans {n k : Nat} {m m₁ m₂ : Machine σ} (h : Steps setting program n m m₁)
    (h' : Steps setting program k m₁ m₂) : Steps setting program (n + k) m m₂ := by
  induction h with
  | refl _ => rwa [Nat.zero_add]
  | cons hop hstep _ ih =>
    rw [Nat.add_right_comm]
    exact .cons hop hstep (ih h')

/-- Without a limit of steps, an instruction is its effect. -/
theorem Machine.step_eq_perform (hfree : setting.limits.maxSteps = none) (op : Op)
    (m : Machine σ) : step setting program op m = perform setting program op m.next := by
  obtain ⟨pc, stack, frames, globals, loops, ledger⟩ := m
  have hwithin := Limits.within_of_unlimited hfree (ledger.steps + 1)
  have hcharge : ofRun (Run.charge setting.limits) ⟨pc, stack, frames, globals, loops, ledger⟩ =
      .ok () ⟨pc, stack, frames, globals, loops, ledger.withSteps (ledger.steps + 1)⟩ := by
    simp only [ofRun, Run.charge_of_within hwithin]
  rw [step_eq, bind_of_ok hcharge]
  rfl

theorem Steps.one (hfree : setting.limits.maxSteps = none) {op : Op} {m m' : Machine σ}
    (hop : program.At m.pc op) (h : Machine.perform setting program op m.next = .ok () m') :
    Steps setting program 1 m m' :=
  .cons hop ((Machine.step_eq_perform hfree op m).trans h) (.refl m')

theorem Stops.one (hfree : setting.limits.maxSteps = none) {op : Op} {m m' : Machine σ} {e : Error}
    (hop : program.At m.pc op) (h : Machine.perform setting program op m.next = .error e m') :
    Stops setting program m e m' :=
  ⟨op, hop, (Machine.step_eq_perform hfree op m).trans h⟩

/-- An execution goes on where the instructions have led. -/
theorem Steps.execute_eq {n : Nat} {m m' : Machine σ} (h : Steps setting program n m m') (k : Nat) :
    Machine.execute setting program (n + k) m = Machine.execute setting program k m' := by
  induction h with
  | refl _ => rw [Nat.zero_add]
  | cons hop hstep _ ih =>
    rw [Nat.add_right_comm, Machine.execute, hop]
    simp only [hstep, ih]

theorem Stops.execute_eq {m m' : Machine σ} {e : Error} (h : Stops setting program m e m')
    (k : Nat) : Machine.execute setting program (k + 1) m = .error (.fail e) m' := by
  obtain ⟨op, hop, hstep⟩ := h
  rw [Machine.execute, hop]
  simp only [hstep]

end Instructions

/-! ### Answers to results -/

/-- What a machine does about the result of an evaluation. A value and a jump come with what must
hold then of the world and the machine reached; an evaluation that is unfinished takes at least
`rounds` instructions. -/
def Answers (setting : Setting ι σ) (program : Program) (rounds : Nat)
    (Q : α → World σ → Machine σ → Prop) (J : Jump → World σ → Machine σ → Prop) (m : Machine σ) :
    EStateM.Result Exit (World σ) α → Prop
  | .ok a w => ∃ n m', Steps setting program n m m' ∧ Q a w m'
  | .error (.jump j) w => ∃ n m', Steps setting program n m m' ∧ J j w m'
  | .error (.fail e) w => ∃ n m₁ e' m', Steps setting program n m m₁ ∧
      Stops setting program m₁ e' m' ∧ e'.plain = e.plain ∧
      m'.ledger = w.ledger.withSteps m'.ledger.steps
  | .error .unfinished _ => ∃ n m', rounds ≤ n ∧ Steps setting program n m m'

namespace Answers

variable {setting : Setting ι σ} {program : Program} {rounds : Nat}
  {Q : α → World σ → Machine σ → Prop} {J : Jump → World σ → Machine σ → Prop} {m m' : Machine σ}
  {r : EStateM.Result Exit (World σ) α}

theorem ok {a : α} {w : World σ} (h : Q a w m) :
    Answers setting program rounds Q J m (.ok a w) :=
  ⟨0, m, .refl m, h⟩

theorem fail {e e' : Error} {w : World σ} (h : Stops setting program m e' m')
    (hplain : e'.plain = e.plain) (hledger : m'.ledger = w.ledger.withSteps m'.ledger.steps) :
    Answers setting program rounds Q J m (.error (.fail e) w) :=
  ⟨0, m, e', m', .refl m, h, hplain, hledger⟩

/-- Instructions executed before count as rounds. -/
theorem afterRounds {n : Nat} (hsteps : Steps setting program n m m')
    (h : Answers setting program rounds Q J m' r) :
    Answers setting program (rounds + n) Q J m r := by
  rcases r with ⟨a, w⟩ | ⟨j | e | _, w⟩
  · obtain ⟨k, m₁, hk, hq⟩ := h
    exact ⟨n + k, m₁, hsteps.trans hk, hq⟩
  · obtain ⟨k, m₁, hk, hj⟩ := h
    exact ⟨n + k, m₁, hsteps.trans hk, hj⟩
  · obtain ⟨k, m₁, e', m₂, hk, hstops⟩ := h
    exact ⟨n + k, m₁, e', m₂, hsteps.trans hk, hstops⟩
  · obtain ⟨k, m₁, hle, hk⟩ := h
    exact ⟨n + k, m₁, by omega, hsteps.trans hk⟩

/-- A result of which no more is asked is answered if more is answered. -/
theorem mono {rounds' : Nat} {Q' : α → World σ → Machine σ → Prop}
    {J' : Jump → World σ → Machine σ → Prop} (h : Answers setting program rounds Q J m r)
    (hrounds : rounds' ≤ rounds) (hQ : ∀ a w m', Q a w m' → Q' a w m')
    (hJ : ∀ j w m', J j w m' → J' j w m') : Answers setting program rounds' Q' J' m r := by
  rcases r with ⟨a, w⟩ | ⟨j | e | _, w⟩
  · obtain ⟨k, m₁, hk, hq⟩ := h
    exact ⟨k, m₁, hk, hQ _ _ _ hq⟩
  · obtain ⟨k, m₁, hk, hj⟩ := h
    exact ⟨k, m₁, hk, hJ _ _ _ hj⟩
  · exact h
  · obtain ⟨k, m₁, hle, hk⟩ := h
    exact ⟨k, m₁, by omega, hk⟩

theorem after {n : Nat} (hsteps : Steps setting program n m m')
    (h : Answers setting program rounds Q J m' r) : Answers setting program rounds Q J m r :=
  (h.afterRounds hsteps).mono (Nat.le_add_right _ _) (fun _ _ _ => id) fun _ _ _ => id

/-- What comes behind an evaluation is answered from where the machine has got. -/
theorem bind {x : Eval σ α} {f : α → Eval σ β} {Q' : β → World σ → Machine σ → Prop}
    {w : World σ} (h : Answers setting program rounds Q J m (x w))
    (hf : ∀ a w' m', Q a w' m' → Answers setting program rounds Q' J m' (f a w')) :
    Answers setting program rounds Q' J m ((x >>= f) w) := by
  rcases hr : x w with ⟨a, w₁⟩ | ⟨j | e | _, w₁⟩ <;> rw [hr] at h
  · obtain ⟨n, m₁, hsteps, hq⟩ := h
    rw [bind_of_ok hr]
    exact (hf a w₁ m₁ hq).after hsteps
  · rw [bind_of_error hr]
    exact h
  · rw [bind_of_error hr]
    exact h
  · rw [bind_of_error hr]
    exact h

/-- The machine may do more once it has got to a value. -/
theorem onward {Q' : α → World σ → Machine σ → Prop} (h : Answers setting program rounds Q J m r)
    (hQ : ∀ a w m₁, Q a w m₁ → ∃ n m₂, Steps setting program n m₁ m₂ ∧ Q' a w m₂) :
    Answers setting program rounds Q' J m r := by
  rcases r with ⟨a, w⟩ | ⟨j | e | _, w⟩
  · obtain ⟨n, m₁, hsteps, hq⟩ := h
    obtain ⟨k, m₂, hsteps', hq'⟩ := hQ a w m₁ hq
    exact ⟨n + k, m₂, hsteps.trans hsteps', hq'⟩
  · exact h
  · exact h
  · exact h

/-- A change of the world that keeps the ledger. -/
theorem mapState {f : World σ → World σ} (hf : ∀ w, (f w).ledger = w.ledger)
    (h : Answers setting program rounds (fun a w => Q a (f w)) (fun j w => J j (f w)) m r) :
    Answers setting program rounds Q J m (mapState f r) := by
  rcases r with ⟨a, w⟩ | ⟨j | e | _, w⟩
  · exact h
  · exact h
  · obtain ⟨n, m₁, e', m₂, hsteps, hstops, hplain, hledger⟩ := h
    exact ⟨n, m₁, e', m₂, hsteps, hstops, hplain, by rw [hf w]; exact hledger⟩
  · exact h

/-- An evaluation that does not jump needs no answer to jumps. -/
theorem jumpless {x : Eval σ α} {w : World σ} {J' : Jump → World σ → Machine σ → Prop}
    (hx : Eval.Jumpless x) (h : Answers setting program rounds Q J m (x w)) :
    Answers setting program rounds Q J' m (x w) := by
  rcases hr : x w with ⟨a, w₁⟩ | ⟨j | e | _, w₁⟩ <;> rw [hr] at h
  · exact h
  · exact absurd hr (hx w j w₁)
  · exact h
  · exact h

end Answers

/-! ### Machines between pieces of code -/

/-- Where code stands: the slots of names, the sizes of the open frames and the open loops. -/
structure Site where
  scopes : Scopes UInt16
  capacities : List Nat
  loops : List LoopRecord

namespace Site

/-- The number of open frames. -/
def depth (site : Site) : Nat :=
  site.capacities.length

/-- Inside a block whose frame has so many slots. -/
def push (site : Site) (capacity : Nat) : Site :=
  { site with scopes := site.scopes.push, capacities := capacity :: site.capacities }

/-- So many frames outward. -/
def outward (site : Site) (n : Nat) : Site :=
  { site with
    scopes := { site.scopes with inner := site.scopes.inner.drop n }
    capacities := site.capacities.drop n }

end Site

/-- A world, so many frames outward. -/
def World.outward (w : World σ) (n : Nat) : World σ :=
  ⟨{ w.scopes with inner := w.scopes.inner.drop n }, w.ledger⟩

/-- A machine between pieces of code, and the world that belongs to it. The ledgers differ in
nothing but the count of steps. -/
structure Stands (site : Site) (pc : Nat) (stack : List Value) (w : World σ) (m : Machine σ) :
    Prop where
  pc : m.pc = pc
  stack : m.stack = stack
  loops : m.loops = site.loops
  scopes : ScopesMatch site.capacities site.scopes w.scopes m.frames m.globals
  ledger : m.ledger = w.ledger.withSteps m.ledger.steps

/-- Ledgers that differ in the count only are the same with the same count. -/
theorem Ledger.withSteps_eq {l l' : Ledger σ} (h : l' = l.withSteps l'.steps) (k : Nat) :
    l'.withSteps k = l.withSteps k := by
  rw [h, withSteps_withSteps]

namespace Stands

variable {site : Site} {pc : Nat} {stack : List Value} {w : World σ} {m : Machine σ}

/-- The steps of the evaluation do not matter. -/
theorem withSteps (h : Stands site pc stack w m) (k : Nat) :
    Stands site pc stack (w.withSteps k) m :=
  ⟨h.pc, h.stack, h.loops, h.scopes, h.ledger⟩

/-- Behind an instruction that leaves everything else as it is. -/
theorem next (h : Stands site pc stack w m) : Stands site (pc + 1) stack w m.next :=
  ⟨congrArg (· + 1) h.pc, h.stack, h.loops, h.scopes, Ledger.withSteps_eq h.ledger _⟩

/-- The machine at the effect of its next instruction. -/
theorem next_eq (h : Stands site pc stack w m) :
    m.next = ⟨pc + 1, stack, m.frames, m.globals, site.loops,
      w.ledger.withSteps (m.ledger.steps + 1)⟩ := by
  obtain ⟨rfl, rfl, hloops, -, hledger⟩ := h
  rw [Machine.next, hloops, Ledger.withSteps_eq hledger]

end Stands

/-- A loop that code may jump to: where it stands, the stack at its beginning and its record. -/
structure Target where
  site : Site
  stack : List Value
  record : LoopRecord

/-- The offset that a jump goes to. -/
def LoopRecord.offset (record : LoopRecord) : Jump → Nat
  | .break_ => record.breakTarget
  | .continue_ => record.continueTarget

/-- The loop is the innermost one around the code, and no part of it is in use by the loop around
it. -/
structure Target.Encloses (target : Target) (site : Site) (stack : List Value) : Prop where
  loops : ∃ outer, site.loops = target.record :: outer
  suffix : target.stack <:+ stack
  stackSize : target.record.stackSize = target.stack.length
  frameCount : target.record.frameCount = target.site.depth
  site : ∃ n, site.depth = n + target.site.depth ∧ target.site = site.outward n

/-- The machine has jumped to the loop, as many frames outward as lie between. -/
def Jumped (target : Option Target) (depth : Nat) (j : Jump) (w : World σ) (m : Machine σ) : Prop :=
  ∃ t ∈ target, ∃ n, depth = n + t.site.depth ∧
    Stands t.site (t.record.offset j) t.stack (w.outward n) m

/-- Between the offsets stands code that computes the evaluation: it answers it from the first
offset, and leaves the value on the stack at the second. -/
def Computes (setting : Setting ι σ) (program : Program) (rounds : Nat) (target : Option Target)
    (site site' : Site) (base last : Nat) (stack : List Value) (x : Eval σ Value) : Prop :=
  ∀ w m, Stands site base stack w m →
    Answers setting program rounds (fun v => Stands site' last (v :: stack))
      (Jumped target site.depth) m (x w)

/-- The code of the expression, wherever in the program it is and whatever is above the given part
of the stack, computes the evaluation, and the code behind it sees the same slots. -/
def Translates (setting : Setting ι σ) (program : Program) (rounds : Nat) (target : Option Target)
    (site : Site) (stack : List Value) (e : Expr) (x : Eval σ Value) : Prop :=
  ∀ base last S', CodeOf program site.scopes base e last S' →
    S' = site.scopes ∧
      ∀ above, Computes setting program rounds target site site base last (above ++ stack) x

/-! ### Instructions that answer evaluations -/

section Constructs

open Eval

theorem Program.constant_eq {program : Program} {i : UInt32} {value : Value}
    (h : program.Pools i value) : program.constant i = .ok value := by
  have hget : program.constants[i.toNat]? = some value := h
  simp only [constant, hget]

theorem Program.nameConstant_eq {program : Program} {i : UInt32} {name : String}
    (h : program.Pools i (.string name)) : program.nameConstant i = .ok name := by
  rw [nameConstant, constant_eq h]
  rfl

variable {setting : Setting ι σ} {program : Program} {rounds : Nat}
  {J : Jump → World σ → Machine σ → Prop} {site : Site} {pc : Nat} {stack : List Value}
  {w : World σ} {m : Machine σ} {op : Op}

/-- The value is on top of the stack. -/
theorem Answers.value {v : Value} (h : Stands site pc (v :: stack) w m) :
    Answers setting program rounds (fun v => Stands site pc (v :: stack)) J m (.ok v w) :=
  .ok h

/-- An instruction that replaces operands on the stack by a result, if there is one. -/
theorem Answers.operation (hfree : setting.limits.maxSteps = none) {operands : List Value}
    {result : Except Error Value} (h : Stands site pc (operands ++ stack) w m)
    (hop : program.At pc op)
    (hperform : ∀ pc ledger, Machine.perform setting program op
        ⟨pc, operands ++ stack, m.frames, m.globals, site.loops, ledger⟩ =
      (Machine.ofExcept result >>= Machine.push)
        ⟨pc, stack, m.frames, m.globals, site.loops, ledger⟩) :
    Answers setting program rounds (fun v => Stands site (pc + 1) (v :: stack)) J m
      (ofExcept result w) := by
  have hat : program.At m.pc op := by rwa [h.pc]
  have hnext := hperform (pc + 1) (w.ledger.withSteps (m.ledger.steps + 1))
  rw [← h.next_eq] at hnext
  cases result with
  | ok v => exact ⟨1, _, .one hfree hat hnext, ⟨rfl, rfl, rfl, h.scopes, rfl⟩⟩
  | error e => exact .fail (.one hfree hat hnext) rfl rfl

/-- An instruction that leads to another place, where other scopes belong to the machine. -/
theorem Answers.effect {Q : α → World σ → Machine σ → Prop}
    (hfree : setting.limits.maxSteps = none) {before : List Value} (site' : Site) {pc' : Nat}
    {scopes : Scopes Value} {frames : List (Array Value)} {globals : Frame Value}
    {r : EStateM.Result Exit (World σ) α} (h : Stands site pc before w m)
    (hop : program.At pc op)
    (hperform : ∀ ledger, Machine.perform setting program op
        ⟨pc + 1, before, m.frames, m.globals, site.loops, ledger⟩ =
      .ok () ⟨pc', stack, frames, globals, site'.loops, ledger⟩)
    (hscopes : ScopesMatch site'.capacities site'.scopes scopes frames globals)
    (hr : ∀ m', Stands site' pc' stack ⟨scopes, w.ledger⟩ m' →
      Answers setting program rounds Q J m' r) :
    Answers setting program rounds Q J m r := by
  have hat : program.At m.pc op := by rwa [h.pc]
  have hnext := hperform (w.ledger.withSteps (m.ledger.steps + 1))
  rw [← h.next_eq] at hnext
  refine .after (.one hfree hat hnext) (hr _ ?_)
  exact ⟨rfl, rfl, rfl, hscopes, rfl⟩

/-- An instruction that goes to an offset with other values on the stack. -/
theorem Answers.goto {Q : α → World σ → Machine σ → Prop} (hfree : setting.limits.maxSteps = none)
    {before : List Value} {pc' : Nat} {r : EStateM.Result Exit (World σ) α}
    (h : Stands site pc before w m) (hop : program.At pc op)
    (hperform : ∀ ledger, Machine.perform setting program op
        ⟨pc + 1, before, m.frames, m.globals, site.loops, ledger⟩ =
      .ok () ⟨pc', stack, m.frames, m.globals, site.loops, ledger⟩)
    (hr : ∀ m', Stands site pc' stack w m' → Answers setting program rounds Q J m' r) :
    Answers setting program rounds Q J m r :=
  .effect hfree site h hop hperform h.scopes hr

/-- An instruction that fails beside the ledger. -/
theorem Answers.failing {Q : α → World σ → Machine σ → Prop}
    (hfree : setting.limits.maxSteps = none) {e e' : Error} (h : Stands site pc stack w m)
    (hop : program.At pc op) (hplain : e'.plain = e.plain) {stack' : List Value}
    (hperform : ∀ ledger, Machine.perform setting program op
        ⟨pc + 1, stack, m.frames, m.globals, site.loops, ledger⟩ =
      .error e' ⟨pc + 1, stack', m.frames, m.globals, site.loops, ledger⟩) :
    Answers setting program rounds Q J m (.error (.fail e) w) := by
  have hat : program.At m.pc op := by rwa [h.pc]
  have hnext := hperform (w.ledger.withSteps (m.ledger.steps + 1))
  rw [← h.next_eq] at hnext
  exact .fail (.one hfree hat hnext) hplain rfl

theorem requireBoolean_cases (context : String) (value : Value) :
    (∃ flag, value = .boolean flag ∧ requireBoolean context value = .ok flag) ∨
    (∀ context', requireBoolean context' value =
      .error (.type (.needsBoolean context' value.kind))) := by
  cases value with
  | boolean flag => exact .inl ⟨flag, rfl, rfl⟩
  | _ => exact .inr fun _ => rfl

/-- An instruction that needs a truth value on top of the stack fails if there is none. -/
theorem Answers.truth {Q : α → World σ → Machine σ → Prop} (hfree : setting.limits.maxSteps = none)
    {context context' : String} {value : Value} {stack' : List Value} {f : Bool → Eval σ α}
    (hcontext : ∀ found, (Error.type (.needsBoolean context' found)).plain =
      (Error.type (.needsBoolean context found)).plain)
    (h : Stands site pc (value :: stack) w m) (hop : program.At pc op)
    (hperform : ∀ e ledger, requireBoolean context' value = .error e →
      Machine.perform setting program op
        ⟨pc + 1, value :: stack, m.frames, m.globals, site.loops, ledger⟩ =
      .error e ⟨pc + 1, stack', m.frames, m.globals, site.loops, ledger⟩)
    (hf : ∀ flag, value = .boolean flag → Answers setting program rounds Q J m (f flag w)) :
    Answers setting program rounds Q J m ((ofExcept (requireBoolean context value) >>= f) w) := by
  obtain ⟨flag, rfl, hflag⟩ | herror := requireBoolean_cases context value
  · rw [hflag]
    exact hf flag rfl
  · rw [herror context]
    exact .failing hfree h hop (hcontext _) fun ledger => hperform _ ledger (herror context')

end Constructs

end Covenant
