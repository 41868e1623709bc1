import Covenant.Proofs.Counter

/-!
# Runs with more steps

A run that ends without having asked for more steps than it may use, or for more rounds, ends in the
same way under every other limit that leaves it the steps it has used. This carries results of runs
with a step limit over to runs without one, and back.

## Main definitions

* `Setting.withMaxSteps` : a setting with another limit of steps.
* `Error.OutOfSteps`, `Exit.OutOfSteps`, `Halt.OutOfSteps` : more was asked for than allowed.
* `Completes` : a result that is not of this kind.
* `Carries` : a computation that does what another one has completed.

## Main results

* `interpret_carries` : a script that has completed does so under every limit it meets.
* `runProgram_carries` : so does a program.
-/

namespace Covenant

variable {ι σ ε τ α β : Type}

/-- A setting with another limit of steps. -/
def Setting.withMaxSteps (setting : Setting ι σ) (maxSteps : Option UInt64) : Setting ι σ :=
  { setting with limits := { setting.limits with maxSteps } }

/-- The steps are used up. -/
def Error.OutOfSteps : Error → Prop
  | .exhausted .steps _ => True
  | _ => False

/-- The steps or the rounds of a loop are used up. -/
def Exit.OutOfSteps : Exit → Prop
  | .fail e => e.OutOfSteps
  | .unfinished => True
  | .jump _ => False

/-- The steps or the instructions are used up. -/
def Halt.OutOfSteps : Halt → Prop
  | .fail e => e.OutOfSteps
  | .unfinished => True

/-- The result of a computation that was not stopped. -/
def Completes (stopped : ε → Prop) : EStateM.Result ε τ α → Prop
  | .ok _ _ => True
  | .error e _ => ¬ stopped e

/-- Where the first computation is not stopped and the limit allows the steps it has used, the
second does the same. The count of steps does not go down. -/
def Carries (count : τ → Nat) (stopped : ε → Prop) (limits : Limits) (x y : EStateM ε τ α) : Prop :=
  ∀ s, count s ≤ count (reached (x s)) ∧
    (Completes stopped (x s) → limits.Within (count (reached (x s))) → y s = x s)

namespace Carries

variable {count : τ → Nat} {stopped : ε → Prop} {limits : Limits}

/-- A computation that keeps the count. -/
theorem refl {x : EStateM ε τ α} (h : ∀ s, count (reached (x s)) = count s) :
    Carries count stopped limits x x :=
  fun s => ⟨Nat.le_of_eq (h s).symm, fun _ _ => rfl⟩

theorem bind {x y : EStateM ε τ α} {f g : α → EStateM ε τ β}
    (hx : Carries count stopped limits x y) (hf : ∀ a, Carries count stopped limits (f a) (g a)) :
    Carries count stopped limits (x >>= f) (y >>= g) := by
  intro s
  obtain ⟨hle, heq⟩ := hx s
  cases hr : x s with
  | error e s₁ =>
    rw [hr] at hle heq
    rw [bind_of_error hr]
    refine ⟨hle, fun hcompletes hwithin => ?_⟩
    rw [bind_of_error (heq hcompletes hwithin)]
  | ok a s₁ =>
    rw [hr] at hle heq
    rw [bind_of_ok hr]
    obtain ⟨hle₁, heq₁⟩ := hf a s₁
    refine ⟨Nat.le_trans hle hle₁, fun hcompletes hwithin => ?_⟩
    rw [bind_of_ok (heq trivial (hwithin.mono hle₁)), heq₁ hcompletes hwithin]

end Carries

/-! ### Operations on the ledger -/

namespace Run

theorem charge_carries (limits limits' : Limits) :
    Carries Ledger.steps Error.OutOfSteps limits' (charge limits : Run σ Unit)
      (charge limits') := by
  intro l
  rw [charge_reached]
  refine ⟨Nat.le_succ _, fun hcompletes hwithin => ?_⟩
  obtain hlimit | ⟨limit, hlimit, hexceeded⟩ := within_or_exceeded limits (l.steps + 1)
  · rw [charge_of_within hlimit, charge_of_within hwithin]
  · rw [charge_of_exceeded hlimit hexceeded] at hcompletes
    exact absurd trivial hcompletes

theorem call_steps (setting : Setting ι σ) (name : String) (args : List Value) (l : Ledger σ) :
    (reached (call setting name args l)).steps = l.steps := by
  have h : call setting name args l = _ := call_uncounted l.steps setting name args l
  rw [h, reached_mapState]
  rfl

end Run

theorem Eval.ofRun_carries {limits : Limits} {x y : Run σ α}
    (h : Carries Ledger.steps Error.OutOfSteps limits x y) :
    Carries (fun w : World σ => w.ledger.steps) Exit.OutOfSteps limits (ofRun x) (ofRun y) := by
  rintro ⟨scopes, ledger⟩
  obtain ⟨hle, heq⟩ := h ledger
  unfold ofRun
  cases hr : x ledger <;> rw [hr] at hle heq <;> simp only [hr] <;>
    refine ⟨hle, fun hcompletes hwithin => ?_⟩ <;> rw [heq hcompletes hwithin]

theorem Machine.ofRun_carries {limits : Limits} {x y : Run σ α}
    (h : Carries Ledger.steps Error.OutOfSteps limits x y) :
    Carries (fun m : Machine σ => m.ledger.steps) Error.OutOfSteps limits (ofRun x) (ofRun y) := by
  rintro ⟨pc, stack, frames, globals, loops, ledger⟩
  obtain ⟨hle, heq⟩ := h ledger
  unfold ofRun
  cases hr : x ledger <;> rw [hr] at hle heq <;> simp only [hr] <;>
    refine ⟨hle, fun hcompletes hwithin => ?_⟩ <;> rw [heq hcompletes hwithin]

/-! ### Scripts -/

section Scripts

open Eval

variable {limits : Limits}

theorem framed_carries {x y : Eval σ α}
    (h : Carries (fun w : World σ => w.ledger.steps) Exit.OutOfSteps limits x y) :
    Carries (fun w : World σ => w.ledger.steps) Exit.OutOfSteps limits (framed x) (framed y) := by
  rintro ⟨scopes, ledger⟩
  obtain ⟨hle, heq⟩ := h ⟨scopes.push, ledger⟩
  unfold framed
  cases hr : x ⟨scopes.push, ledger⟩ <;> rw [hr] at hle heq <;> simp only [hr] <;>
    refine ⟨hle, fun hcompletes hwithin => ?_⟩ <;> rw [heq hcompletes hwithin]

theorem loopBody_carries {x y : Eval σ α}
    (h : Carries (fun w : World σ => w.ledger.steps) Exit.OutOfSteps limits x y) :
    Carries (fun w : World σ => w.ledger.steps) Exit.OutOfSteps limits (loopBody x)
      (loopBody y) := by
  intro w
  obtain ⟨hle, heq⟩ := h w
  rw [loopBody_eq, loopBody_eq, reached_takeJump]
  refine ⟨hle, fun hcompletes hwithin => ?_⟩
  rw [heq ?_ hwithin]
  -- The body completes if the loop does: a loop takes nothing but jumps.
  rcases hr : x w with ⟨a, w₁⟩ | ⟨j | e | _, w₁⟩
  · trivial
  · exact id
  · rw [hr] at hcompletes
    exact hcompletes
  · rw [hr] at hcompletes
    exact hcompletes

/-- More rounds are allowed in the second repetition. -/
theorem repeatWhile_carries {x y : Eval σ Bool}
    (h : Carries (fun w : World σ => w.ledger.steps) Exit.OutOfSteps limits x y) {n n' : Nat}
    (hn : n ≤ n') :
    Carries (fun w : World σ => w.ledger.steps) Exit.OutOfSteps limits (repeatWhile x n)
      (repeatWhile y n') := by
  induction n generalizing n' with
  | zero => exact fun w => ⟨Nat.le_refl _, fun hcompletes => absurd trivial hcompletes⟩
  | succ n ih =>
    obtain ⟨n', rfl⟩ : ∃ k, n' = k + 1 := ⟨n' - 1, by omega⟩
    refine h.bind fun goesOn => ?_
    cases goesOn with
    | true => exact ih (by omega)
    | false => exact .refl fun _ => rfl

variable (setting : Setting ι σ) (maxSteps : Option UInt64)

theorem compatible_carries :
    Compatible setting (setting.withMaxSteps maxSteps) fun _ =>
      Carries (fun w : World σ => w.ledger.steps) Exit.OutOfSteps
        (setting.withMaxSteps maxSteps).limits where
  pure a := .refl fun _ => rfl
  bind := .bind
  ofExcept result := .refl fun w => by rw [ofExcept_reached]
  readName name := .refl fun w => by rw [readName, ofExcept_reached]
  define _ _ := .refl fun _ => rfl
  assign name value := .refl fun w => by rw [assign_reached]
  call name args := ofRun_carries (.refl (Run.call_steps setting name args))
  checkpoint := ofRun_carries (.refl fun l => by rw [Run.checkpoint_reached])
  checkScope w :=
    ofRun_carries (.refl fun l => by rw [Run.checkScopeDepth_reached _ w.scopes.depth]) w
  framed := framed_carries
  loopBody := loopBody_carries

theorem congruence_carries {allowance allowance' : Nat} (h : allowance ≤ allowance') :
    Congruence setting (setting.withMaxSteps maxSteps) allowance allowance' Eq
      (fun _ => Carries (fun w : World σ => w.ledger.steps) Exit.OutOfSteps
        (setting.withMaxSteps maxSteps).limits)
      (Carries (fun w : World σ => w.ledger.steps) Exit.OutOfSteps
        (setting.withMaxSteps maxSteps).limits) where
  toCompatible := compatible_carries setting maxSteps
  deeper hd := congrArg Nat.succ hd
  enter {d _ _ _} hd hx := by
    subst hd
    have henter : Carries (fun w : World σ => w.ledger.steps) Exit.OutOfSteps
        (setting.withMaxSteps maxSteps).limits (enter setting d)
        (enter (setting.withMaxSteps maxSteps) d) :=
      (ofRun_carries (Run.charge_carries _ _)).bind fun _ =>
        ofRun_carries (.refl fun l => by rw [Run.checkExpressionDepth_reached _ d])
    exact henter.bind fun _ => hx
  weaken := id
  repeatWhile part part' test body body' htest hbody := repeatWhile_carries
    ((compatible_carries setting maxSteps).round part part' test body body' htest hbody) h

end Scripts

/-- A script that has completed does so under every limit of steps that it meets, and with more
rounds. -/
theorem interpret_carries (setting : Setting ι σ) (maxSteps : Option UInt64)
    {allowance allowance' : Nat} (h : allowance ≤ allowance') (script : Script)
    (bindings : Table Value) (l : Ledger σ)
    (hcompletes : Completes Exit.OutOfSteps (interpret setting allowance script bindings l))
    (hwithin : (setting.withMaxSteps maxSteps).limits.Within
      (reached (interpret setting allowance script bindings l)).ledger.steps) :
    interpret (setting.withMaxSteps maxSteps) allowance' script bindings l =
      interpret setting allowance script bindings l :=
  ((congruence_carries setting maxSteps h).evalStatements
    (fun _ => .refl fun _ => rfl) rfl .null script.statements ⟨globalsOf bindings, l⟩).2
    hcompletes hwithin

/-! ### Programs -/

section Programs

variable (setting : Setting ι σ) (maxSteps : Option UInt64)

theorem compatible_machine_carries :
    Machine.Compatible setting (setting.withMaxSteps maxSteps) fun _ =>
      Carries (fun m : Machine σ => m.ledger.steps) Error.OutOfSteps
        (setting.withMaxSteps maxSteps).limits where
  aside {_ x y} h := by
    rw [h.eq]
    exact .refl fun m => by rw [h.kept]
  bind := .bind
  call name args := Machine.ofRun_carries (.refl (Run.call_steps setting name args))
  checkpoint := Machine.ofRun_carries (.refl fun l => by rw [Run.checkpoint_reached])
  checkFrames m := Machine.ofRun_carries
    (.refl fun l => by rw [Run.checkScopeDepth_reached _ (m.frames.length + 2)]) m

theorem step_carries (program : Program) (op : Op) :
    Carries (fun m : Machine σ => m.ledger.steps) Error.OutOfSteps
      (setting.withMaxSteps maxSteps).limits (Machine.step setting program op)
      (Machine.step (setting.withMaxSteps maxSteps) program op) := by
  rw [Machine.step_eq, Machine.step_eq]
  exact (Machine.ofRun_carries (Run.charge_carries _ _)).bind fun _ =>
    (Carries.refl fun _ => rfl).bind fun _ =>
      (compatible_machine_carries setting maxSteps).perform program op

/-- An execution that has completed does so under every limit of steps that it meets, and with more
instructions. -/
theorem execute_carries (program : Program) {n n' : Nat} (hn : n ≤ n') :
    Carries (fun m : Machine σ => m.ledger.steps) Halt.OutOfSteps
      (setting.withMaxSteps maxSteps).limits (Machine.execute setting program n)
      (Machine.execute (setting.withMaxSteps maxSteps) program n') := by
  induction n generalizing n' with
  | zero => exact fun m => ⟨Nat.le_refl _, fun hcompletes => absurd trivial hcompletes⟩
  | succ n ih =>
    obtain ⟨n', rfl⟩ : ∃ k, n' = k + 1 := ⟨n' - 1, by omega⟩
    intro m
    simp only [Machine.execute]
    cases program.code[m.pc]? with
    | none => exact ⟨Nat.le_refl _, fun _ _ => rfl⟩
    | some op =>
      dsimp only
      obtain ⟨hle, heq⟩ := step_carries setting maxSteps program op m
      cases hr : Machine.step setting program op m with
      | error e m₁ =>
        rw [hr] at hle heq
        refine ⟨hle, fun hcompletes hwithin => ?_⟩
        rw [heq hcompletes hwithin]
      | ok _ m₁ =>
        rw [hr] at hle heq
        obtain ⟨hle₁, heq₁⟩ := ih (show n ≤ n' by omega) m₁
        refine ⟨Nat.le_trans hle hle₁, fun hcompletes hwithin => ?_⟩
        rw [heq trivial (hwithin.mono hle₁)]
        exact heq₁ hcompletes hwithin

end Programs

/-- A program that has completed does so under every limit of steps that it meets, and with more
instructions. -/
theorem runProgram_carries (setting : Setting ι σ) (maxSteps : Option UInt64)
    {allowance allowance' : Nat} (h : allowance ≤ allowance') (program : Program)
    (bindings : Table Value) (l : Ledger σ)
    (hcompletes : Completes Halt.OutOfSteps (runProgram setting allowance program bindings l))
    (hwithin : (setting.withMaxSteps maxSteps).limits.Within
      (reached (runProgram setting allowance program bindings l)).ledger.steps) :
    runProgram (setting.withMaxSteps maxSteps) allowance' program bindings l =
      runProgram setting allowance program bindings l :=
  (execute_carries setting maxSteps program h (Machine.start bindings l)).2 hcompletes hwithin

end Covenant
