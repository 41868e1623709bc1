import Covenant.Proofs.Audit
import Covenant.Proofs.Refinement
import Covenant.Proofs.Validation

/-!
# The trail determines what a run depends on

The permissions granted to a run are looked at nowhere but when a capability is called, and every
such call leaves a record. So a run that no missing permission has ended is the same with all other
permissions that cover the calls on record, be they more, fewer or different ones.

Both runs are compared from the end: that all calls on record are covered holds of the whole run
and so, since the trail only grows, of every part of it.

## Main definitions

* `Permissions.Cover` : permissions that are enough for the calls on record.
* `Error.Denial`, `Exit.Denial`, `Halt.Denial` : a permission was missing.
* `Reproduces` : a computation that does what another one does, if its end meets a condition.

## Main results

* `Run.call_reproduces` : calls depend on the permissions that their records need.
* `interpret_reproduces`, `runProgram_reproduces` : so do runs.
* `outcome_eq_of_cover` : an outcome is the same with all permissions that cover its calls.
-/

namespace Covenant

variable {ι σ ε τ α β : Type}

/-- The setting with other permissions. -/
def Setting.withGranted (setting : Setting ι σ) (granted : Permissions) : Setting ι σ :=
  { setting with granted }

/-- The permissions are enough for the calls on record: they include that of every registered
capability that a record names. -/
def Permissions.Cover (granted : Permissions) (registry : Registry ι) (calls : List CallRecord) :
    Prop :=
  ∀ r ∈ calls, ∀ name c, registry.get? name = some c → c.subsystem = r.subsystem →
    c.function = r.function → granted.allows c.permission = true

theorem Permissions.Cover.of_append {granted : Permissions} {registry : Registry ι}
    {calls later : List CallRecord} (h : granted.Cover registry (calls ++ later)) :
    granted.Cover registry calls :=
  fun r hr => h r (List.mem_append_left later hr)

/-- The permission for the last call on record is among those that cover the trail. -/
theorem Permissions.Cover.allows {granted : Permissions} {registry : Registry ι}
    {calls : List CallRecord} {name : String} {c : Capability ι} {args : List Value}
    {outcome : CallOutcome}
    (h : granted.Cover registry (calls ++ [⟨c.subsystem, c.function, args, outcome⟩]))
    (hname : registry.get? name = some c) : granted.allows c.permission = true :=
  h _ (List.mem_append_right calls List.mem_cons_self) name c hname rfl rfl

/-! ### Denials -/

/-- A permission was missing. -/
def Error.Denial : Error → Prop
  | .permissionDenied _ _ => True
  | _ => False

/-- An evaluation was left because a permission was missing. -/
def Exit.Denial : Exit → Prop
  | .fail e => e.Denial
  | .jump _ | .unfinished => False

/-- An execution came to its end because a permission was missing. -/
def Halt.Denial : Halt → Prop
  | .fail e => e.Denial
  | .unfinished => False

/-! ### Computations that reproduce others -/

/-- If the end of the first computation meets the condition, so does its beginning, and unless it
was stopped, the second does the same. -/
def Reproduces (good : τ → Prop) (stopped : ε → Prop) (x y : EStateM ε τ α) : Prop :=
  ∀ s, good (reached (x s)) → good s ∧ (Completes stopped (x s) → y s = x s)

namespace Reproduces

variable {good : τ → Prop} {stopped : ε → Prop}

/-- A computation that does not bring the condition about. -/
theorem refl {x : EStateM ε τ α} (h : ∀ s, good (reached (x s)) → good s) :
    Reproduces good stopped x x :=
  fun s hs => ⟨h s hs, fun _ => rfl⟩

theorem bind {x y : EStateM ε τ α} {f g : α → EStateM ε τ β}
    (hx : Reproduces good stopped x y) (hf : ∀ a, Reproduces good stopped (f a) (g a)) :
    Reproduces good stopped (x >>= f) (y >>= g) := by
  intro s hgood
  have h := hx s
  cases hr : x s with
  | error e s₁ =>
    rw [hr] at h
    rw [bind_of_error hr] at hgood ⊢
    obtain ⟨hs, heq⟩ := h hgood
    refine ⟨hs, fun hcompletes => ?_⟩
    rw [bind_of_error (heq hcompletes)]
  | ok a s₁ =>
    rw [hr] at h
    rw [bind_of_ok hr] at hgood ⊢
    obtain ⟨hs₁, heq₁⟩ := hf a s₁ hgood
    obtain ⟨hs, heq⟩ := h hs₁
    refine ⟨hs, fun hcompletes => ?_⟩
    rw [bind_of_ok (heq trivial), heq₁ hcompletes]

end Reproduces

/-! ### Calls -/

section Calls

variable (setting : Setting ι σ) (granted : Permissions)

/-- The permissions cover the calls on the ledger. -/
def Ledger.Covered (l : Ledger σ) : Prop :=
  granted.Cover setting.host.registry l.calls.toList

/-- What keeps the calls on record does not bring about that they are covered. -/
theorem Run.reproduces_of_calls_kept {x : Run σ α} (h : ∀ l, (reached (x l)).calls = l.calls) :
    Reproduces (Ledger.Covered setting granted) Error.Denial x x := by
  refine .refl fun l hl => ?_
  rwa [Ledger.Covered, h l] at hl

theorem Run.reproduces_of_reached {x : Run σ α} (h : ∀ l, reached (x l) = l) :
    Reproduces (Ledger.Covered setting granted) Error.Denial x x :=
  reproduces_of_calls_kept setting granted fun l => congrArg Ledger.calls (h l)

theorem Run.charge_reproduces :
    Reproduces (Ledger.Covered setting granted) Error.Denial (charge setting.limits : Run σ Unit)
      (charge setting.limits) :=
  reproduces_of_calls_kept setting granted fun l => by rw [charge_reached]; rfl

/-- A capability is called in the same way if its permission is granted as well. -/
theorem Run.invoke_reproduces (name : String) (args : List Value) :
    Reproduces (Ledger.Covered setting granted) Error.Denial (invoke setting name args)
      (invoke (setting.withGranted granted) name args) := by
  intro l hcovered
  cases hname : setting.host.registry.get? name with
  | none =>
    have hname' : (setting.withGranted granted).host.registry.get? name = none := hname
    rw [invoke_of_unknown hname] at hcovered ⊢
    exact ⟨hcovered, fun _ => invoke_of_unknown hname'⟩
  | some c =>
    have hname' : (setting.withGranted granted).host.registry.get? name = some c := hname
    cases hallowed : setting.granted.allows c.permission with
    | false =>
      rw [invoke_of_denied hname hallowed] at hcovered ⊢
      rw [Ledger.Covered, reached_error, Ledger.afterCall, Array.toList_push] at hcovered
      exact ⟨hcovered.of_append, fun hcompletes => absurd trivial hcompletes⟩
    | true =>
      cases hresult : (setting.host.perform c.implementation args l.host).1.result with
      | ok value =>
        rw [invoke_of_returned hname hallowed hresult] at hcovered ⊢
        rw [Ledger.Covered, reached_ok, Ledger.afterCall, Array.toList_push] at hcovered
        exact ⟨hcovered.of_append, fun _ =>
          invoke_of_returned hname' (hcovered.allows hname) hresult⟩
      | error cause =>
        rw [invoke_of_failed hname hallowed hresult] at hcovered ⊢
        rw [Ledger.Covered, reached_error, Ledger.afterCall, Array.toList_push] at hcovered
        exact ⟨hcovered.of_append, fun _ =>
          invoke_of_failed hname' (hcovered.allows hname) hresult⟩

/-- A call does the same with all permissions that cover its record. -/
theorem Run.call_reproduces (name : String) (args : List Value) :
    Reproduces (Ledger.Covered setting granted) Error.Denial (call setting name args)
      (call (setting.withGranted granted) name args) := by
  unfold call
  split
  · rename_i b _
    refine reproduces_of_calls_kept setting granted fun l => ?_
    obtain ⟨output, hb⟩ := builtin_reached setting b args l
    rw [hb]
  · split
    · exact invoke_reproduces setting granted name args
    · exact reproduces_of_reached setting granted fun _ => rfl

end Calls

/-! ### Scripts -/

section Scripts

open Eval

variable {good : Ledger σ → Prop}

theorem Eval.ofRun_reproduces {x y : Run σ α} (h : Reproduces good Error.Denial x y) :
    Reproduces (fun w : World σ => good w.ledger) Exit.Denial (ofRun x) (ofRun y) := by
  intro w hgood
  rw [ofRun_reached] at hgood
  obtain ⟨hs, heq⟩ := h w.ledger hgood
  refine ⟨hs, fun hcompletes => ?_⟩
  cases hr : x w.ledger with
  | ok a l =>
    rw [hr] at heq
    rw [ofRun_of_ok hr, ofRun_of_ok (heq trivial)]
  | error e l =>
    rw [hr] at heq
    rw [ofRun_of_error hr] at hcompletes ⊢
    rw [ofRun_of_error (heq hcompletes)]

/-- An evaluation that keeps the ledger. -/
theorem Eval.reproduces_of_ledger_kept {x : Eval σ α}
    (h : ∀ w, (reached (x w)).ledger = w.ledger) :
    Reproduces (fun w : World σ => good w.ledger) Exit.Denial x x :=
  .refl fun w hgood => by rwa [h w] at hgood

theorem framed_reproduces {x y : Eval σ α}
    (h : Reproduces (fun w : World σ => good w.ledger) Exit.Denial x y) :
    Reproduces (fun w : World σ => good w.ledger) Exit.Denial (framed x) (framed y) := by
  rintro ⟨scopes, ledger⟩ hgood
  rw [framed, reached_mapState] at hgood
  obtain ⟨hs, heq⟩ := h ⟨scopes.push, ledger⟩ hgood
  refine ⟨hs, fun hcompletes => ?_⟩
  simp only [framed]
  rw [heq]
  rw [framed] at hcompletes
  cases hr : x ⟨scopes.push, ledger⟩ <;> rw [hr] at hcompletes <;> exact hcompletes

theorem loopBody_reproduces {x y : Eval σ α}
    (h : Reproduces (fun w : World σ => good w.ledger) Exit.Denial x y) :
    Reproduces (fun w : World σ => good w.ledger) Exit.Denial (loopBody x) (loopBody y) := by
  intro w hgood
  rw [loopBody_eq, reached_takeJump] at hgood
  obtain ⟨hs, heq⟩ := h w hgood
  refine ⟨hs, fun hcompletes => ?_⟩
  rw [loopBody_eq] at hcompletes
  rw [loopBody_eq, loopBody_eq, heq]
  -- A loop takes nothing but jumps, so the body is not stopped if the loop is not.
  rcases hr : x w with ⟨a, w₁⟩ | ⟨j | e | _, w₁⟩
  · trivial
  · exact id
  · rw [hr] at hcompletes
    exact hcompletes
  · exact id

theorem repeatWhile_reproduces {x y : Eval σ Bool}
    (h : Reproduces (fun w : World σ => good w.ledger) Exit.Denial x y) (n : Nat) :
    Reproduces (fun w : World σ => good w.ledger) Exit.Denial (repeatWhile x n)
      (repeatWhile y n) := by
  induction n with
  | zero => exact .refl fun _ => id
  | succ n ih =>
    refine h.bind fun goesOn => ?_
    cases goesOn with
    | true => exact ih
    | false => exact .refl fun _ => id

variable (setting : Setting ι σ) (granted : Permissions)

theorem compatible_reproduces :
    Compatible setting (setting.withGranted granted) fun _ =>
      Reproduces (fun w => w.ledger.Covered setting granted) Exit.Denial where
  pure a := .refl fun _ => id
  bind := .bind
  ofExcept result := reproduces_of_ledger_kept fun w => by rw [ofExcept_reached]
  readName name := reproduces_of_ledger_kept fun w => by rw [readName, ofExcept_reached]
  define _ _ := reproduces_of_ledger_kept fun _ => rfl
  assign name value := reproduces_of_ledger_kept fun w => assign_reached name value w
  call name args := ofRun_reproduces (Run.call_reproduces setting granted name args)
  checkpoint :=
    ofRun_reproduces (Run.reproduces_of_reached setting granted (Run.checkpoint_reached _))
  checkScope w := ofRun_reproduces
    (Run.reproduces_of_reached setting granted
      (Run.checkScopeDepth_reached _ w.scopes.depth)) w
  framed := framed_reproduces
  loopBody := loopBody_reproduces

theorem congruence_reproduces (allowance : Nat) :
    Congruence setting (setting.withGranted granted) allowance allowance Eq
      (fun _ => Reproduces (fun w => w.ledger.Covered setting granted) Exit.Denial)
      (Reproduces (fun w => w.ledger.Covered setting granted) Exit.Denial) where
  toCompatible := compatible_reproduces setting granted
  deeper hd := congrArg Nat.succ hd
  enter {d _ _ _} hd hx := by
    subst hd
    have henter : Reproduces (fun w : World σ => w.ledger.Covered setting granted) Exit.Denial
        (enter setting d) (enter (setting.withGranted granted) d) :=
      (ofRun_reproduces (Run.charge_reproduces setting granted)).bind fun _ =>
        ofRun_reproduces
          (Run.reproduces_of_reached setting granted (Run.checkExpressionDepth_reached _ d))
    exact henter.bind fun _ => hx
  weaken := id
  repeatWhile part part' test body body' htest hbody := repeatWhile_reproduces
    ((compatible_reproduces setting granted).round part part' test body body' htest hbody) allowance

end Scripts

/-- A script that no missing permission has ended does the same with all permissions that cover its
calls. -/
theorem interpret_reproduces (setting : Setting ι σ) (granted : Permissions) (allowance : Nat)
    (script : Script) (bindings : Table Value) (l : Ledger σ)
    (hcovered : (reached (interpret setting allowance script bindings l)).ledger.Covered setting
      granted)
    (hcompletes : Completes Exit.Denial (interpret setting allowance script bindings l)) :
    interpret (setting.withGranted granted) allowance script bindings l =
      interpret setting allowance script bindings l :=
  ((congruence_reproduces setting granted allowance).evalStatements (fun _ => .refl fun _ => id) rfl
    .null script.statements ⟨globalsOf bindings, l⟩ hcovered).2 hcompletes

/-! ### Programs -/

section Programs

theorem Machine.ofRun_reproduces {good : Ledger σ → Prop} {x y : Run σ α}
    (h : Reproduces good Error.Denial x y) :
    Reproduces (fun m : Machine σ => good m.ledger) Error.Denial (ofRun x) (ofRun y) := by
  intro m hgood
  have hs := h m.ledger
  cases hr : x m.ledger with
  | ok a l =>
    rw [ofRun_of_ok hr] at hgood ⊢
    rw [hr] at hs
    obtain ⟨hs, heq⟩ := hs hgood
    exact ⟨hs, fun hcompletes => ofRun_of_ok (heq hcompletes)⟩
  | error e l =>
    rw [ofRun_of_error hr] at hgood ⊢
    rw [hr] at hs
    obtain ⟨hs, heq⟩ := hs hgood
    exact ⟨hs, fun hcompletes => ofRun_of_error (heq hcompletes)⟩

variable (setting : Setting ι σ) (granted : Permissions)

theorem compatible_machine_reproduces :
    Machine.Compatible setting (setting.withGranted granted) fun _ =>
      Reproduces (fun m => m.ledger.Covered setting granted) Error.Denial where
  aside {_ x y} h := by
    rw [h.eq]
    exact .refl fun m hgood => by rwa [h.kept] at hgood
  bind := .bind
  call name args := Machine.ofRun_reproduces (Run.call_reproduces setting granted name args)
  checkpoint := Machine.ofRun_reproduces
    (Run.reproduces_of_reached setting granted (Run.checkpoint_reached _))
  checkFrames m := Machine.ofRun_reproduces
    (Run.reproduces_of_reached setting granted
      (Run.checkScopeDepth_reached _ (m.frames.length + 2))) m

theorem step_reproduces (program : Program) (op : Op) :
    Reproduces (fun m => m.ledger.Covered setting granted) Error.Denial
      (Machine.step setting program op)
      (Machine.step (setting.withGranted granted) program op) := by
  rw [Machine.step_eq, Machine.step_eq]
  exact (Machine.ofRun_reproduces (Run.charge_reproduces setting granted)).bind fun _ =>
    (Reproduces.refl fun _ => id).bind fun _ =>
      (compatible_machine_reproduces setting granted).perform program op

/-- An execution that no missing permission has ended does the same with all permissions that cover
its calls. -/
theorem execute_reproduces (program : Program) (n : Nat) :
    Reproduces (fun m => m.ledger.Covered setting granted) Halt.Denial
      (Machine.execute setting program n)
      (Machine.execute (setting.withGranted granted) program n) := by
  induction n with
  | zero => exact .refl fun _ => id
  | succ n ih =>
    intro m
    simp only [Machine.execute]
    cases program.code[m.pc]? with
    | none => exact fun hgood => ⟨hgood, fun _ => rfl⟩
    | some op =>
      dsimp only
      have hstep := step_reproduces setting granted program op m
      cases hr : Machine.step setting program op m with
      | error e m₁ =>
        rw [hr] at hstep
        intro hgood
        obtain ⟨hs, heq⟩ := hstep hgood
        refine ⟨hs, fun hcompletes => ?_⟩
        rw [heq hcompletes]
      | ok _ m₁ =>
        rw [hr] at hstep
        intro hgood
        obtain ⟨hs₁, heq₁⟩ := ih m₁ hgood
        obtain ⟨hs, heq⟩ := hstep hs₁
        refine ⟨hs, fun hcompletes => ?_⟩
        rw [heq trivial]
        exact heq₁ hcompletes

end Programs

/-- A program that no missing permission has ended does the same with all permissions that cover its
calls. -/
theorem runProgram_reproduces (setting : Setting ι σ) (granted : Permissions) (allowance : Nat)
    (program : Program) (bindings : Table Value) (l : Ledger σ)
    (hcovered : (reached (runProgram setting allowance program bindings l)).ledger.Covered setting
      granted)
    (hcompletes : Completes Halt.Denial (runProgram setting allowance program bindings l)) :
    runProgram (setting.withGranted granted) allowance program bindings l =
      runProgram setting allowance program bindings l :=
  (execute_reproduces setting granted program allowance (Machine.start bindings l) hcovered).2
    hcompletes

/-! ### Runs of an engine -/

/-- The evaluation behind an outcome has a value, and its ledger holds the calls. -/
theorem completes_of_evaluationEnding {r : EStateM.Result Exit (World σ) Value} {outcome : Outcome}
    {state : σ} (h : evaluationEnding r = (.value outcome, state)) :
    Completes Exit.Denial r ∧ outcome.calls = (reached r).ledger.calls.toList := by
  rcases r with ⟨v, w⟩ | ⟨j | e | _, w⟩ <;> cases h
  exact ⟨trivial, rfl⟩

/-- The execution behind an outcome has a value, and its ledger holds the calls. -/
theorem completes_of_executionEnding {r : EStateM.Result Halt (Machine σ) Value} {outcome : Outcome}
    {state : σ} (h : executionEnding r = (.value outcome, state)) :
    Completes Halt.Denial r ∧ outcome.calls = (reached r).ledger.calls.toList := by
  rcases r with ⟨v, m⟩ | ⟨e | _, m⟩ <;> cases h
  exact ⟨trivial, rfl⟩

/-- A script or a program that ends with an outcome ends with the same outcome, and leaves the host
in the same state, with all permissions that cover the calls of the outcome. -/
theorem outcome_eq_of_cover (engine : Engine ι) (around : Surroundings ι σ) (options : Options)
    (granted : Permissions) (state state' : σ) {outcome : Outcome}
    (hcover : granted.Cover engine.capabilities outcome.calls) :
    (∀ script, engine.execute around options script state = (.value outcome, state') →
      engine.execute around { options with granted } script state = (.value outcome, state')) ∧
    ∀ program, engine.run around options program state = (.value outcome, state') →
      engine.run around { options with granted } program state = (.value outcome, state') := by
  let setting := engine.setting around options
  refine ⟨fun script h => ?_, fun program h => ?_⟩
  · obtain ⟨hcompletes, hcalls⟩ := completes_of_evaluationEnding h
    rw [hcalls] at hcover
    refine Eq.trans ?_ h
    exact congrArg evaluationEnding
      (interpret_reproduces setting granted _ script _ _ hcover hcompletes)
  · rw [Engine.run_eq] at h ⊢
    obtain ⟨hcompletes, hcalls⟩ := completes_of_executionEnding h
    rw [hcalls] at hcover
    refine Eq.trans ?_ h
    exact congrArg executionEnding
      (runProgram_reproduces setting granted _ program _ _ hcover hcompletes)

/-- An engine whose only capability shows a balance. -/
def Engine.bank : Engine Unit :=
  ⟨{}, ⟨[("ledger.balance", .balance)]⟩, .empty⟩

/-- A world in which the balance grows with each look at it. -/
def Surroundings.bank : Surroundings Unit Nat :=
  ⟨fun _ _ n => (⟨.ok (.integer (.ofNat n)), false⟩, n + 1), "", 0⟩

/-- The options of a teller, who may also change the ledger. -/
def Options.teller : Options :=
  { granted := .ofList ["ledger:read", "ledger:write"] }

/-- The permissions of an auditor, who may also read the audit trail. -/
def Permissions.auditor : Permissions :=
  .ofList ["audit:read", "ledger:read"]

/-- The run has an outcome with so many calls. -/
def Ending.hasCalls (n : Nat) : Ending → Bool
  | .value outcome => outcome.calls.length == n
  | _ => false

theorem exists_of_hasCalls {n : Nat} {ending : Ending × σ} (h : ending.1.hasCalls n = true) :
    ∃ outcome state, ending = (.value outcome, state) ∧ outcome.calls.length = n := by
  obtain ⟨_ | _ | _, state⟩ := ending
  · exact ⟨_, state, rfl, beq_iff_eq.mp h⟩
  · cases h
  · cases h

theorem Permissions.auditor_cover (calls : List CallRecord) :
    auditor.Cover Engine.bank.capabilities calls := by
  intro r _ name c hc _ _
  obtain ⟨-, rfl⟩ := Prod.mk.inj (List.mem_singleton.mp (Table.mem_of_find? hc))
  decide

theorem outcome_eq_of_cover_auditor :
    ∃ script program outcome outcome' state state',
      parse "main" "let first = ledger.balance()\nfirst + ledger.balance()" = .ok script ∧
      Engine.bank.compile script (.ofList ["ledger:read"]) = .ok program ∧
      outcome.calls.length = 2 ∧ outcome'.calls.length = 2 ∧
      Permissions.auditor.Cover Engine.bank.capabilities outcome.calls ∧
      Permissions.auditor.Cover Engine.bank.capabilities outcome'.calls ∧
      Engine.bank.execute .bank .teller script 0 = (.value outcome, state) ∧
      Engine.bank.execute .bank { Options.teller with granted := .auditor } script 0 =
        (.value outcome, state) ∧
      Engine.bank.run .bank .teller program 0 = (.value outcome', state') ∧
      Engine.bank.run .bank { Options.teller with granted := .auditor } program 0 =
        (.value outcome', state') := by
  have hcheck : (parse "main"
      "let first = ledger.balance()\nfirst + ledger.balance()").toOption.any (fun script =>
        (Engine.bank.compile script (.ofList ["ledger:read"])).toOption.any fun program =>
          (Engine.bank.execute .bank .teller script 0).1.hasCalls 2 &&
            (Engine.bank.run .bank .teller program 0).1.hasCalls 2) = true := by
    decide +kernel
  obtain ⟨script, hparse, hcheck⟩ := exists_ok_of_check hcheck
  obtain ⟨program, hcompile, hcheck⟩ := exists_ok_of_check hcheck
  rw [Bool.and_eq_true] at hcheck
  obtain ⟨outcome, state, hexecute, hcalls⟩ := exists_of_hasCalls hcheck.1
  obtain ⟨outcome', state', hrun, hcalls'⟩ := exists_of_hasCalls hcheck.2
  have hcover := Permissions.auditor_cover outcome.calls
  have hcover' := Permissions.auditor_cover outcome'.calls
  exact ⟨script, program, outcome, outcome', state, state', hparse, hcompile, hcalls, hcalls',
    hcover, hcover', hexecute,
    (outcome_eq_of_cover Engine.bank .bank .teller .auditor 0 state hcover).1 script hexecute,
    hrun,
    (outcome_eq_of_cover Engine.bank .bank .teller .auditor 0 state' hcover').2 program hrun⟩

end Covenant
