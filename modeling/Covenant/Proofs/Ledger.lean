import Covenant.Proofs.Evaluation
import Covenant.Proofs.Execution

/-!
# What runs do with the ledger

Evaluations and executions reach the ledger only through a few operations: the charge of a step, the
checks of limits, and calls. So what holds of these operations holds of whole runs of scripts and of
programs. Two such facts are carried over here: that a run does the same when its ledger is seen
through a map, and that a run keeps an invariant of the ledger.

## Main definitions

* `World.mapLedger`, `Machine.mapLedger` : a world or machine with a mapped ledger.
* `LedgerMap` : a map of ledgers that every operation respects.
* `HostMap` : a map of the states of a host that the host respects.
* `LedgerInvariant` : a condition on ledgers that every operation keeps until it fails.

## Main results

* `interpret_follows`, `runProgram_follows` : runs respect what every operation respects.
* `interpret_meets`, `runProgram_meets` : runs keep what every operation keeps.
-/

namespace Covenant

variable {ι σ ι' σ' α : Type}

/-! ### Operations that leave the ledger as it is -/

namespace Run

theorem checkpoint_reached (limits : Limits) (l : Ledger σ) :
    reached (checkpoint limits l) = l := by
  obtain ⟨steps, cancelled, output, calls, host⟩ := l
  unfold checkpoint
  cases cancelled <;> cases limits.expired? <;> rfl

theorem checkScopeDepth_reached (limits : Limits) (depth : Nat) (l : Ledger σ) :
    reached (checkScopeDepth limits depth l) = l := by
  simp only [checkScopeDepth]
  split <;> rfl

theorem checkExpressionDepth_reached (limits : Limits) (depth : Nat) (l : Ledger σ) :
    reached (checkExpressionDepth limits depth l) = l := by
  simp only [checkExpressionDepth]
  split <;> rfl

end Run

namespace Eval

theorem ofRun_reached (x : Run σ α) (w : World σ) :
    (reached (ofRun x w)).ledger = reached (x w.ledger) := by
  obtain ⟨scopes, ledger⟩ := w
  simp only [ofRun]
  cases x ledger <;> rfl

theorem ofExcept_reached (result : Except Error α) (w : World σ) :
    reached (ofExcept result w) = w := by
  cases result <;> rfl

theorem assign_reached (name : String) (value : Value) (w : World σ) :
    (reached (assign name value w)).ledger = w.ledger := by
  rw [assign_eq]
  cases w.scopes.assign name value <;> rfl

end Eval

/-! ### Maps of ledgers -/

/-- A world with a mapped ledger. -/
def World.mapLedger (f : Ledger σ → Ledger σ') (w : World σ) : World σ' :=
  ⟨w.scopes, f w.ledger⟩

/-- A machine with a mapped ledger. -/
def Machine.mapLedger (f : Ledger σ → Ledger σ') (m : Machine σ) : Machine σ' :=
  m.withLedger (f m.ledger)

namespace Run

variable (f : Ledger σ → Ledger σ')

theorem fail_follows (e : Error) : Follows f (fail e : Run σ α) (fail e) := fun _ => rfl

theorem ofExcept_follows (result : Except Error α) :
    Follows f (ofExcept result : Run σ α) (ofExcept result) := by
  intro l
  cases result <;> rfl

/-- A charge looks at nothing but the steps, and changes nothing else. -/
theorem charge_follows (hsteps : ∀ l, (f l).steps = l.steps)
    (hcharged : ∀ l : Ledger σ,
      f { l with steps := l.steps + 1 } = { f l with steps := l.steps + 1 })
    (limits : Limits) : Follows f (charge limits) (charge limits) := by
  intro l
  have hl := (hcharged l).symm
  simp only [charge, hsteps]
  cases limits.maxSteps with
  | none => exact congrArg (EStateM.Result.ok ()) hl
  | some limit =>
    dsimp only
    split
    · exact congrArg (EStateM.Result.error _) hl
    · exact congrArg (EStateM.Result.ok ()) hl

/-- A checkpoint looks at nothing but the cancellation. -/
theorem checkpoint_follows (hf : ∀ l, (f l).cancelled = l.cancelled) (limits : Limits) :
    Follows f (checkpoint limits) (checkpoint limits) := by
  intro l
  simp only [checkpoint, hf l]
  split
  · rfl
  · cases limits.expired? <;> rfl

theorem checkScopeDepth_follows (limits : Limits) (depth : Nat) :
    Follows f (checkScopeDepth limits depth) (checkScopeDepth limits depth) := by
  unfold checkScopeDepth
  split
  · exact fail_follows f _
  · exact .pure _

theorem checkExpressionDepth_follows (limits : Limits) (depth : Nat) :
    Follows f (checkExpressionDepth limits depth) (checkExpressionDepth limits depth) := by
  unfold checkExpressionDepth
  split
  · exact fail_follows f _
  · exact .pure _

section Calls

variable {setting : Setting ι σ} {setting' : Setting ι' σ'} {f}
  (hclock : setting'.clock = setting.clock)
  (houtput : ∀ (l : Ledger σ) (line : String),
    f { l with output := l.output.push line } = { f l with output := (f l).output.push line })

include hclock houtput

/-- A built-in function looks at nothing but the clock, and changes nothing but the output. -/
theorem builtin_follows (b : Builtin) (args : List Value) :
    Follows f (builtin setting b args) (builtin setting' b args) := by
  have hresult := ofExcept_follows f (b.apply setting.clock args)
  unfold builtin
  rw [hclock]
  cases b.line? args with
  | none => exact hresult
  | some line =>
    exact .bind (fun l => congrArg (EStateM.Result.ok ()) (houtput l line).symm) fun _ => hresult

/-- Calls do the same if the calls of capabilities do. -/
theorem call_follows (hinvoke : ∀ (name : String) (args : List Value),
      Follows f (invoke setting name args) (invoke setting' name args))
    (name : String) (args : List Value) :
    Follows f (call setting name args) (call setting' name args) := by
  unfold call
  split
  · exact builtin_follows hclock houtput _ args
  · split
    · exact hinvoke name args
    · exact fail_follows f _

end Calls

end Run

/-- Under the second setting, operations do with the mapped ledger what they do under the first. -/
structure LedgerMap (setting : Setting ι σ) (setting' : Setting ι' σ')
    (f : Ledger σ → Ledger σ') : Prop where
  charge : Follows f (Run.charge setting.limits) (Run.charge setting'.limits)
  checkpoint : Follows f (Run.checkpoint setting.limits) (Run.checkpoint setting'.limits)
  checkScopeDepth (depth : Nat) :
    Follows f (Run.checkScopeDepth setting.limits depth) (Run.checkScopeDepth setting'.limits depth)
  checkExpressionDepth (depth : Nat) :
    Follows f (Run.checkExpressionDepth setting.limits depth)
      (Run.checkExpressionDepth setting'.limits depth)
  call (name : String) (args : List Value) :
    Follows f (Run.call setting name args) (Run.call setting' name args)

/-- A ledger with a mapped state of the host. -/
def Ledger.mapHost (g : σ → σ') (l : Ledger σ) : Ledger σ' :=
  ⟨l.steps, l.cancelled, l.output, l.calls, g l.host⟩

/-- An attempted call with a mapped state of the host. -/
def Attempt.mapState (g : σ → σ') (attempt : Attempt σ) : Attempt σ' :=
  ⟨attempt.result, attempt.record, attempt.cancels, g attempt.state⟩

/-- The settings differ in their hosts, and the second host does with the mapped state what the
first one does. -/
structure HostMap (setting : Setting ι σ) (setting' : Setting ι σ') (g : σ → σ') : Prop where
  limits : setting'.limits = setting.limits
  granted : setting'.granted = setting.granted
  clock : setting'.clock = setting.clock
  registry : setting'.host.registry = setting.host.registry
  perform (implementation : ι) (args : List Value) (state : σ) :
    setting'.host.perform implementation args (g state) =
      ((setting.host.perform implementation args state).1,
        g (setting.host.perform implementation args state).2)

namespace HostMap

variable {setting : Setting ι σ} {setting' : Setting ι σ'} {g : σ → σ'}

theorem attempt (h : HostMap setting setting' g) (name : String) (args : List Value) (state : σ) :
    setting'.host.invoke setting'.granted name args (g state) =
      (setting.host.invoke setting.granted name args state).mapState g := by
  simp only [Host.invoke, h.registry, h.granted]
  cases setting.host.registry.get? name with
  | none => rfl
  | some c =>
    cases hallowed : setting.granted.allows c.permission with
    | false => simp [hallowed, Attempt.mapState]
    | true =>
      cases hresult : (setting.host.perform c.implementation args state).1.result <;>
        simp [hallowed, hresult, h.perform, Attempt.mapState]

theorem invoke (h : HostMap setting setting' g) (name : String) (args : List Value) :
    Follows (Ledger.mapHost g) (Run.invoke setting name args) (Run.invoke setting' name args) := by
  intro l
  simp only [Run.invoke, Ledger.mapHost, h.attempt]
  cases hresult : (setting.host.invoke setting.granted name args l.host).result <;>
    simp only [Attempt.mapState, hresult] <;> rfl

/-- Every operation on the ledger respects the map of the host's states. -/
theorem ledgerMap (h : HostMap setting setting' g) :
    LedgerMap setting setting' (Ledger.mapHost g) where
  charge := by
    rw [h.limits]
    exact Run.charge_follows (Ledger.mapHost g) (fun _ => rfl) (fun _ => rfl) _
  checkpoint := by
    rw [h.limits]
    exact Run.checkpoint_follows (Ledger.mapHost g) (fun _ => rfl) _
  checkScopeDepth := by
    rw [h.limits]
    exact Run.checkScopeDepth_follows _ _
  checkExpressionDepth := by
    rw [h.limits]
    exact Run.checkExpressionDepth_follows _ _
  call := Run.call_follows h.clock (fun _ _ => rfl) h.invoke

end HostMap

namespace Eval

variable (f : Ledger σ → Ledger σ')

theorem ofRun_follows {x : Run σ α} {x' : Run σ' α} (hx : Follows f x x') :
    Follows (World.mapLedger f) (ofRun x) (ofRun x') := by
  rintro ⟨scopes, ledger⟩
  have h : x' (f ledger) = mapState f (x ledger) := hx ledger
  simp only [ofRun, World.mapLedger, h]
  cases x ledger <;> rfl

theorem ofExcept_follows (result : Except Error α) :
    Follows (World.mapLedger f) (ofExcept result : Eval σ α) (ofExcept result) := by
  intro w
  cases result <;> rfl

theorem readName_follows (name : String) :
    Follows (World.mapLedger f) (readName name : Eval σ Value) (readName name) :=
  fun w => ofExcept_follows f (w.scopes.get name) w

theorem define_follows (name : String) (value : Value) :
    Follows (World.mapLedger f) (define name value : Eval σ Unit) (define name value) :=
  fun _ => rfl

theorem assign_follows (name : String) (value : Value) :
    Follows (World.mapLedger f) (assign name value : Eval σ Unit) (assign name value) := by
  intro w
  simp only [assign_eq, World.mapLedger]
  cases w.scopes.assign name value <;> rfl

theorem framed_follows {x : Eval σ α} {x' : Eval σ' α} (hx : Follows (World.mapLedger f) x x') :
    Follows (World.mapLedger f) (framed x) (framed x') := by
  intro w
  have h : x' ⟨w.scopes.push, f w.ledger⟩ = _ := hx ⟨w.scopes.push, w.ledger⟩
  simp only [framed, World.mapLedger, h]
  cases x ⟨w.scopes.push, w.ledger⟩ <;> rfl

theorem loopBody_follows {x : Eval σ α} {x' : Eval σ' α}
    (hx : Follows (World.mapLedger f) x x') :
    Follows (World.mapLedger f) (loopBody x) (loopBody x') := by
  intro w
  rw [loopBody_eq, loopBody_eq, hx w, takeJump_mapState]

theorem repeatWhile_follows {x : Eval σ Bool} {x' : Eval σ' Bool}
    (hx : Follows (World.mapLedger f) x x') (n : Nat) :
    Follows (World.mapLedger f) (repeatWhile x n) (repeatWhile x' n) := by
  induction n with
  | zero => exact fun _ => rfl
  | succ n ih =>
    refine .bind hx fun goesOn => ?_
    cases goesOn with
    | true => exact ih
    | false => exact .pure _

end Eval

namespace Machine

variable (f : Ledger σ → Ledger σ')

theorem ofRun_follows {x : Run σ α} {x' : Run σ' α} (hx : Follows f x x') :
    Follows (mapLedger f) (ofRun x) (ofRun x') := by
  rintro ⟨pc, stack, frames, globals, loops, ledger⟩
  have h : x' (f ledger) = mapState f (x ledger) := hx ledger
  simp only [ofRun, mapLedger, withLedger, h]
  cases x ledger <;> rfl

/-- What happens beside the ledger is the same with a mapped one. -/
theorem Aside.mapLedger {x : Exec σ α} {x' : Exec σ' α} (hx : Aside x x') :
    Follows (mapLedger f) x x' := by
  intro m
  have hkept := hx.kept m
  have hfollows : x' (m.withLedger (f m.ledger)) = _ := hx.follows (f m.ledger) m
  rw [Machine.mapLedger, hfollows]
  cases hr : x m <;> rw [hr] at hkept <;>
    simp only [mapState_ok, mapState_error, Machine.mapLedger, ← hkept, reached]

end Machine

namespace LedgerMap

open Eval

variable {setting : Setting ι σ} {setting' : Setting ι' σ'} {f : Ledger σ → Ledger σ'}

theorem compatible (h : LedgerMap setting setting' f) :
    Compatible setting setting' fun _ => Follows (World.mapLedger f) where
  pure := .pure
  bind := .bind
  ofExcept := ofExcept_follows f
  readName := readName_follows f
  define := define_follows f
  assign := assign_follows f
  call name args := ofRun_follows f (h.call name args)
  checkpoint := ofRun_follows f h.checkpoint
  checkScope w := ofRun_follows f (h.checkScopeDepth w.scopes.depth) w
  framed := framed_follows f
  loopBody := loopBody_follows f

theorem congruence (h : LedgerMap setting setting' f) (allowance : Nat) :
    Congruence setting setting' allowance allowance Eq (fun _ => Follows (World.mapLedger f))
      (Follows (World.mapLedger f)) where
  toCompatible := h.compatible
  deeper hd := congrArg Nat.succ hd
  enter {d _ _ _} hd hx := by
    subst hd
    have henter : Follows (World.mapLedger f) (enter setting d) (enter setting' d) :=
      .bind (ofRun_follows f h.charge) fun _ => ofRun_follows f (h.checkExpressionDepth d)
    exact henter.bind fun _ => hx
  weaken := id
  repeatWhile part part' test _ _ htest hbody :=
    repeatWhile_follows f (h.compatible.round part part' test _ _ htest hbody) allowance

/-- A script does with the mapped ledger what it does with the ledger. -/
theorem interpret_follows (h : LedgerMap setting setting' f) (allowance : Nat) (script : Script)
    (bindings : Table Value) (l : Ledger σ) :
    interpret setting' allowance script bindings (f l) =
      mapState (World.mapLedger f) (interpret setting allowance script bindings l) :=
  (h.congruence allowance).evalStatements (fun _ => .throw _) rfl .null script.statements
    ⟨globalsOf bindings, l⟩

theorem compatible_machine (h : LedgerMap setting setting' f) :
    Machine.Compatible setting setting' fun _ => Follows (Machine.mapLedger f) where
  aside hx := hx.mapLedger f
  bind := .bind
  call name args := Machine.ofRun_follows f (h.call name args)
  checkpoint := Machine.ofRun_follows f h.checkpoint
  checkFrames m := Machine.ofRun_follows f (h.checkScopeDepth (m.frames.length + 2)) m

theorem step_follows (h : LedgerMap setting setting' f) (program : Program) (op : Op) :
    Follows (Machine.mapLedger f) (Machine.step setting program op)
      (Machine.step setting' program op) := by
  rw [Machine.step_eq, Machine.step_eq]
  exact .bind (Machine.ofRun_follows f h.charge) fun _ =>
    .bind (Machine.Aside.advance.mapLedger f) fun _ => h.compatible_machine.perform program op

/-- A program does with the mapped ledger what it does with the ledger. -/
theorem runProgram_follows (h : LedgerMap setting setting' f) (allowance : Nat) (program : Program)
    (bindings : Table Value) (l : Ledger σ) :
    runProgram setting' allowance program bindings (f l) =
      mapState (Machine.mapLedger f) (runProgram setting allowance program bindings l) := by
  have hpc (m : Machine σ) : (m.mapLedger f).pc = m.pc := rfl
  have hstack (m : Machine σ) : (m.mapLedger f).stack = m.stack := rfl
  exact Machine.execute_follows hpc hstack (h.step_follows program) allowance
    (Machine.start bindings l)

end LedgerMap

/-! ### Invariants of the ledger -/

/-- A condition on ledgers that operations keep as long as they succeed. The second condition is
what a failure leaves behind; a failure that changes nothing meets it. -/
structure LedgerInvariant (setting : Setting ι σ) (P : Ledger σ → Prop)
    (Q : Error → Ledger σ → Prop) : Prop where
  failure {l : Ledger σ} (e : Error) : P l → Q e l
  charge : Keeps P Q (Run.charge setting.limits)
  call (name : String) (args : List Value) : Keeps P Q (Run.call setting name args)

/-- What an exit leaves behind: a failure as given, every other exit the invariant. -/
def Exit.Leaves (P : Ledger σ → Prop) (Q : Error → Ledger σ → Prop) : Exit → World σ → Prop
  | .fail e, w => Q e w.ledger
  | .jump _, w | .unfinished, w => P w.ledger

namespace LedgerInvariant

open Eval

variable {setting : Setting ι σ} {P : Ledger σ → Prop} {Q : Error → Ledger σ → Prop}

/-- An operation that leaves the ledger as it is. -/
theorem keeps_of_reached (h : LedgerInvariant setting P Q) {x : Run σ α}
    (hx : ∀ l, reached (x l) = l) : Keeps P Q x := by
  intro l hl
  have hkept : P (reached (x l)) := by rwa [hx l]
  cases hr : x l with
  | ok a l₁ => rwa [hr] at hkept
  | error e l₁ =>
    rw [hr] at hkept
    exact h.failure e hkept

theorem ofRun {x : Run σ α} (hx : Keeps P Q x) :
    Keeps (fun w => P w.ledger) (Exit.Leaves P Q) (ofRun x : Eval σ α) := by
  rintro ⟨scopes, ledger⟩ hw
  have h := hx ledger hw
  simp only [Eval.ofRun]
  cases hr : x ledger <;> rw [hr] at h <;> exact h

/-- An evaluation that leaves the ledger as it is. -/
theorem eval_of_reached (h : LedgerInvariant setting P Q) {x : Eval σ α}
    (hx : ∀ w, (reached (x w)).ledger = w.ledger) :
    Keeps (fun w => P w.ledger) (Exit.Leaves P Q) x := by
  intro w hw
  have hkept : P (reached (x w)).ledger := by rwa [hx w]
  cases hr : x w with
  | ok a w₁ => rwa [hr] at hkept
  | error exit w₁ =>
    rw [hr] at hkept
    cases exit with
    | fail e => exact h.failure e hkept
    | jump j => exact hkept
    | unfinished => exact hkept

theorem framed {x : Eval σ α} (hx : Keeps (fun w => P w.ledger) (Exit.Leaves P Q) x) :
    Keeps (fun w => P w.ledger) (Exit.Leaves P Q) (framed x) := by
  rintro ⟨scopes, ledger⟩ hw
  have h := hx ⟨scopes.push, ledger⟩ hw
  simp only [Eval.framed]
  cases hr : x ⟨scopes.push, ledger⟩ with
  | ok a w₁ => rw [hr] at h; exact h
  | error exit w₁ => rw [hr] at h; cases exit <;> exact h

theorem loopBody {x : Eval σ α} (hx : Keeps (fun w => P w.ledger) (Exit.Leaves P Q) x) :
    Keeps (fun w => P w.ledger) (Exit.Leaves P Q) (loopBody x) := by
  intro w hw
  have h := hx w hw
  rw [loopBody_eq]
  rcases hr : x w with ⟨a, w₁⟩ | ⟨j | e | _, w₁⟩
  · rw [hr] at h
    exact h
  · rw [hr] at h
    cases j <;> exact h
  · rw [hr] at h
    exact h
  · rw [hr] at h
    exact h

theorem repeatWhile {x : Eval σ Bool}
    (hx : Keeps (fun w => P w.ledger) (Exit.Leaves P Q) x) (n : Nat) :
    Keeps (fun w => P w.ledger) (Exit.Leaves P Q) (repeatWhile x n) := by
  induction n with
  | zero => exact fun _ hw => hw
  | succ n ih =>
    refine hx.bind fun goesOn => ?_
    cases goesOn with
    | true => exact ih
    | false => exact .pure _

theorem compatible (h : LedgerInvariant setting P Q) :
    Compatible setting setting fun _ x _ =>
      Keeps (fun w => P w.ledger) (Exit.Leaves P Q) x where
  pure := .pure
  bind := .bind
  ofExcept result := h.eval_of_reached fun w => by rw [ofExcept_reached]
  readName name := h.eval_of_reached fun w => by rw [readName, ofExcept_reached]
  define _ _ := h.eval_of_reached fun _ => rfl
  assign name value := h.eval_of_reached (assign_reached name value)
  call name args := ofRun (h.call name args)
  checkpoint := ofRun (h.keeps_of_reached (Run.checkpoint_reached _))
  checkScope w := ofRun (h.keeps_of_reached (Run.checkScopeDepth_reached _ w.scopes.depth)) w
  framed := framed
  loopBody := loopBody

theorem congruence (h : LedgerInvariant setting P Q) (allowance : Nat) :
    Congruence setting setting allowance allowance Eq
      (fun _ x _ => Keeps (fun w => P w.ledger) (Exit.Leaves P Q) x)
      (fun x _ => Keeps (fun w => P w.ledger) (Exit.Leaves P Q) x) where
  toCompatible := h.compatible
  deeper hd := congrArg Nat.succ hd
  enter {d _ _ _} _ hx := by
    have henter : Keeps (fun w => P w.ledger) (Exit.Leaves P Q) (enter setting d) :=
      (ofRun h.charge).bind fun _ =>
        ofRun (h.keeps_of_reached (Run.checkExpressionDepth_reached _ d))
    exact henter.bind fun _ => hx
  weaken := id
  repeatWhile part part' test body body' htest hbody :=
    repeatWhile (h.compatible.round part part' test body body' htest hbody) allowance

/-- A script keeps the invariant, or leaves behind what its failure does. -/
theorem interpret_meets (h : LedgerInvariant setting P Q) (allowance : Nat) (script : Script)
    (bindings : Table Value) {l : Ledger σ} (hl : P l) :
    Meets (fun w => P w.ledger) (Exit.Leaves P Q)
      (interpret setting allowance script bindings l) :=
  (h.congruence allowance).evalStatements (fun _ _ hw => hw) rfl .null script.statements
    ⟨globalsOf bindings, l⟩ hl

theorem ofRun_machine {x : Run σ α} (hx : Keeps P Q x) :
    Keeps (fun m => P m.ledger) (fun e m => Q e m.ledger) (Machine.ofRun x : Exec σ α) := by
  rintro ⟨pc, stack, frames, globals, loops, ledger⟩ hm
  have h := hx ledger hm
  simp only [Machine.ofRun]
  cases hr : x ledger <;> rw [hr] at h <;> exact h

theorem aside_machine (h : LedgerInvariant setting P Q) {x : Exec σ α}
    (hx : ∀ m, (reached (x m)).ledger = m.ledger) :
    Keeps (fun m => P m.ledger) (fun e m => Q e m.ledger) x := by
  intro m hm
  have hkept : P (reached (x m)).ledger := by rwa [hx m]
  cases hr : x m with
  | ok a m₁ => rwa [hr] at hkept
  | error e m₁ =>
    rw [hr] at hkept
    exact h.failure e hkept

theorem compatible_machine (h : LedgerInvariant setting P Q) :
    Machine.Compatible setting setting fun _ x _ =>
      Keeps (fun m => P m.ledger) (fun e m => Q e m.ledger) x where
  aside hx := h.aside_machine hx.kept
  bind := .bind
  call name args := ofRun_machine (h.call name args)
  checkpoint := ofRun_machine (h.keeps_of_reached (Run.checkpoint_reached _))
  checkFrames m :=
    ofRun_machine (h.keeps_of_reached (Run.checkScopeDepth_reached _ (m.frames.length + 2))) m

theorem step_keeps (h : LedgerInvariant setting P Q) (program : Program) (op : Op) :
    Keeps (fun m => P m.ledger) (fun e m => Q e m.ledger) (Machine.step setting program op) := by
  rw [Machine.step_eq]
  exact .bind (ofRun_machine h.charge) fun _ =>
    .bind (h.aside_machine fun _ => rfl) fun _ => h.compatible_machine.perform program op

/-- A program keeps the invariant, or leaves behind what its failure does. -/
theorem runProgram_meets (h : LedgerInvariant setting P Q) (allowance : Nat) (program : Program)
    (bindings : Table Value) {l : Ledger σ} (hl : P l) :
    Meets (fun m => P m.ledger) (Halt.Leaves (fun m => P m.ledger) fun e m => Q e m.ledger)
      (runProgram setting allowance program bindings l) :=
  Machine.execute_meets (h.step_keeps program) allowance (Machine.start bindings l) hl

end LedgerInvariant

end Covenant
