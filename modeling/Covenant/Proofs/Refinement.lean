import Covenant.Engine
import Covenant.Proofs.Budget
import Covenant.Proofs.Correspondence

/-!
# Programs end as their scripts do

Interpreting a script and running its program count steps differently, so they are compared by how
they end if they do not run out of steps: whenever one of them ends within a budget, the other ends
in the same way within every budget that is large enough.

## Main definitions

* `Ending.Like` : the same value, output and calls, or errors that are alike.
* `Ending.Settled` : a run that did not run out of steps.
* `EndAlike` : two kinds of runs that end alike.
* `Budget` : how many steps a run may take.
* `Engine.executeWithin`, `Engine.runWithin` : runs within a budget.

## Main results

* `Engine.run_endAlike_execute` : a program compiled at level zero ends as its script does, if no
  test of a repetition has a jump in it.
-/

namespace Covenant

variable {ι σ β ρ : Type}

/-! ### How runs end -/

/-- The same value, output and calls, or errors that are alike. -/
def Ending.Like (alike : Error → Error → Prop) : Ending → Ending → Prop
  | .value o, .value o' => o.value = o'.value ∧ o.output = o'.output ∧ o.calls = o'.calls
  | .error e, .error e' => alike e e'
  | _, _ => False

/-- The run has ended, and not because its steps were used up. -/
def Ending.Settled : Ending → Prop
  | .value _ => True
  | .error e => ¬ e.OutOfSteps
  | .unfinished => False

/-- Two kinds of runs end alike: if one of them settles with some budget, the other ends like it
with every budget that covers a certain amount. -/
def EndAlike (covers : β → Nat → Prop) (settled : ρ → Prop) (alike : ρ → ρ → Prop) (x y : β → ρ) :
    Prop :=
  (∀ b, settled (x b) → ∃ n, ∀ b', covers b' n → alike (x b) (y b')) ∧
  ∀ b, settled (y b) → ∃ n, ∀ b', covers b' n → alike (x b') (y b)

/-- How an evaluation ends for the owner, and the state of the host then. -/
def evaluationEnding (r : EStateM.Result Exit (World σ) Value) : Ending × σ :=
  ((Engine.endingOf r).1, (Engine.endingOf r).2.ledger.host)

/-- How an execution ends for the owner, and the state of the host then. -/
def executionEnding : EStateM.Result Halt (Machine σ) Value → Ending × σ
  | .ok v m => (.value (m.ledger.outcome v), m.ledger.host)
  | .error (.fail e) m => (.error e, m.ledger.host)
  | .error .unfinished m => (.unfinished, m.ledger.host)

theorem settled_evaluationEnding (r : EStateM.Result Exit (World σ) Value) :
    (evaluationEnding r).1.Settled ↔ Completes Exit.OutOfSteps r := by
  rcases r with ⟨v, w⟩ | ⟨j | e | _, w⟩
  · exact Iff.rfl
  · exact Iff.rfl
  · exact Iff.rfl
  · exact ⟨False.elim, fun h => h trivial⟩

theorem settled_executionEnding (r : EStateM.Result Halt (Machine σ) Value) :
    (executionEnding r).1.Settled ↔ Completes Halt.OutOfSteps r := by
  rcases r with ⟨v, m⟩ | ⟨e | _, m⟩
  · exact Iff.rfl
  · exact Iff.rfl
  · exact ⟨False.elim, fun h => h trivial⟩

theorem Error.outOfSteps_plain (e : Error) : e.plain.OutOfSteps ↔ e.OutOfSteps := by
  unfold plain
  split
  · split <;> exact Iff.rfl
  · exact Iff.rfl

namespace Corresponds

variable {r : EStateM.Result Exit (World σ) Value} {r' : EStateM.Result Halt (Machine σ) Value}

/-- What corresponds ends alike for the owner. -/
theorem like (h : Corresponds r r') :
    (evaluationEnding r).1.Like (fun e e' => e.plain = e'.plain) (executionEnding r').1 ∧
      (evaluationEnding r).2 = (executionEnding r').2 := by
  cases h with
  | value hledger =>
    refine ⟨⟨rfl, ?_, ?_⟩, ?_⟩ <;> simp only [evaluationEnding, Engine.endingOf, executionEnding,
      Ledger.outcome] <;> rw [hledger] <;> rfl
  | failure hplain hledger =>
    refine ⟨hplain.symm, ?_⟩
    simp only [evaluationEnding, Engine.endingOf, Exit.error?, executionEnding]
    rw [hledger]
    rfl

/-- One of them is out of steps if the other is. -/
theorem completes_iff (h : Corresponds r r') :
    Completes Exit.OutOfSteps r ↔ Completes Halt.OutOfSteps r' := by
  cases h with
  | value _ => exact Iff.rfl
  | @failure e e' _ _ hplain _ =>
    have hiff : e.OutOfSteps ↔ e'.OutOfSteps := by
      rw [← Error.outOfSteps_plain e, ← Error.outOfSteps_plain e', hplain]
    exact not_congr hiff

end Corresponds

/-! ### Budgets -/

/-- How many steps a run may take: a limit of them, or else a horizon beyond which a run without a
limit is not followed. -/
structure Budget where
  maxSteps : Option UInt64
  horizon : Nat

namespace Budget

/-- The rounds or instructions that a run with the budget may take. -/
def allowance (b : Budget) : Nat :=
  match b.maxSteps with
  | some n => n.toNat + 2
  | none => b.horizon

/-- The budget is enough for so many steps. -/
def Covers (b : Budget) (n : Nat) : Prop :=
  match b.maxSteps with
  | some limit => n ≤ limit.toNat
  | none => n ≤ b.horizon

theorem Covers.le_allowance {b : Budget} {n : Nat} (h : b.Covers n) : n ≤ b.allowance := by
  obtain ⟨_ | limit, horizon⟩ := b
  · exact h
  · exact Nat.le_trans h (Nat.le_add_right _ _)

theorem Covers.within {b : Budget} {n : Nat} (h : b.Covers n) {limits : Limits}
    (hlimits : limits.maxSteps = b.maxSteps) : limits.Within n := by
  intro limit hlimit
  obtain ⟨maxSteps, horizon⟩ := b
  obtain rfl : maxSteps = some limit := hlimits.symm.trans hlimit
  exact h

theorem Covers.mono {b : Budget} {n k : Nat} (h : b.Covers n) (hk : k ≤ n) : b.Covers k := by
  obtain ⟨_ | limit, horizon⟩ := b <;> exact Nat.le_trans hk h

end Budget

section Runs

variable {setting : Setting ι σ} {script : Script} {program : Program} {bindings : Table Value}
  {l : Ledger σ}

theorem Setting.withMaxSteps_free (hfree : setting.limits.maxSteps = none)
    (maxSteps : Option UInt64) : (setting.withMaxSteps maxSteps).withMaxSteps none = setting := by
  obtain ⟨⟨_, duration, scopes, expressions⟩, host, granted, clock⟩ := setting
  obtain rfl := hfree
  rfl

/-- If a script settles with a limit of steps, a program that runs alike without one ends like it
with every limit that is large enough. -/
theorem RunsAlike.run_of_interpret (halike : RunsAlike setting script program bindings l)
    (hfree : setting.limits.maxSteps = none) (b : Budget)
    (hcompletes : Completes Exit.OutOfSteps
      (interpret (setting.withMaxSteps b.maxSteps) b.allowance script bindings l)) :
    ∃ n, ∀ b' : Budget, b'.Covers n → Corresponds
      (interpret (setting.withMaxSteps b.maxSteps) b.allowance script bindings l)
      (runProgram (setting.withMaxSteps b'.maxSteps) b'.allowance program bindings l) := by
  -- The same evaluation without the limit, and the execution that corresponds to it.
  have hinterpret := interpret_carries _ none (Nat.le_refl _) script bindings l hcompletes
    (by rw [Setting.withMaxSteps_free hfree]; exact Limits.within_of_unlimited hfree _)
  rw [Setting.withMaxSteps_free hfree] at hinterpret
  rw [← hinterpret] at hcompletes ⊢
  obtain ⟨w, hunfinished, -⟩ | ⟨n, r, hr, -, hrun⟩ := halike b.allowance
  · rw [hunfinished] at hcompletes
    exact absurd trivial hcompletes
  · have hrun := hrun (n + 1) (Nat.lt_succ_self n)
    have hcompletes' := hr.completes_iff.mp hcompletes
    rw [← hrun] at hr hcompletes'
    refine ⟨max (n + 1) (reached (runProgram setting (n + 1) program bindings l)).ledger.steps,
      fun b' hb' => ?_⟩
    rw [runProgram_carries setting b'.maxSteps (hb'.mono (Nat.le_max_left _ _)).le_allowance
      program bindings l hcompletes' ((hb'.mono (Nat.le_max_right _ _)).within rfl)]
    exact hr

/-- If a program settles with a limit of steps, a script that runs alike without one ends like it
with every limit that is large enough. -/
theorem RunsAlike.interpret_of_run (halike : RunsAlike setting script program bindings l)
    (hfree : setting.limits.maxSteps = none) (b : Budget)
    (hcompletes : Completes Halt.OutOfSteps
      (runProgram (setting.withMaxSteps b.maxSteps) b.allowance program bindings l)) :
    ∃ n, ∀ b' : Budget, b'.Covers n → Corresponds
      (interpret (setting.withMaxSteps b'.maxSteps) b'.allowance script bindings l)
      (runProgram (setting.withMaxSteps b.maxSteps) b.allowance program bindings l) := by
  have hexecute := runProgram_carries _ none (Nat.le_refl _) program bindings l hcompletes
    (by rw [Setting.withMaxSteps_free hfree]; exact Limits.within_of_unlimited hfree _)
  rw [Setting.withMaxSteps_free hfree] at hexecute
  rw [← hexecute] at hcompletes ⊢
  have hended (m : Machine σ)
      (hm : runProgram setting b.allowance program bindings l = .error .unfinished m) : False := by
    rw [hm] at hcompletes
    exact hcompletes trivial
  obtain ⟨-, -, hunfinished⟩ | ⟨n, r, hr, hunfinished, hrun⟩ := halike b.allowance
  · obtain ⟨m, hm⟩ := hunfinished _ (Nat.le_refl _)
    exact (hended m hm).elim
  · have hn : n < b.allowance := by
      refine Nat.lt_of_not_le fun hle => ?_
      obtain ⟨m, hm⟩ := hunfinished _ hle
      exact hended m hm
    rw [hrun _ hn] at hcompletes ⊢
    have hcompletes' := hr.completes_iff.mpr hcompletes
    refine ⟨max b.allowance
      (reached (interpret setting b.allowance script bindings l)).ledger.steps, fun b' hb' => ?_⟩
    rw [interpret_carries setting b'.maxSteps (hb'.mono (Nat.le_max_left _ _)).le_allowance
      script bindings l hcompletes' ((hb'.mono (Nat.le_max_right _ _)).within rfl)]
    exact hr

end Runs

/-! ### Runs of an engine -/

namespace Engine

variable (engine : Engine ι) (around : Surroundings ι σ) (options : Options)
  (maxScopeDepth maxExpressionDepth : UInt64)

/-- Interprets a script within a budget and the depths given, without a deadline. -/
def executeWithin (script : Script) (state : σ) (b : Budget) : Ending × σ :=
  engine.execute { around with horizon := b.horizon }
    { options with limits := some ⟨b.maxSteps, none, maxScopeDepth, maxExpressionDepth⟩ } script
    state

/-- Runs a program within a budget and the depths given, without a deadline. -/
def runWithin (program : Program) (state : σ) (b : Budget) : Ending × σ :=
  engine.run { around with horizon := b.horizon }
    { options with limits := some ⟨b.maxSteps, none, maxScopeDepth, maxExpressionDepth⟩ } program
    state

/-- The setting of such runs when steps are not limited. -/
def freeSetting : Setting ι σ :=
  ⟨⟨none, none, maxScopeDepth, maxExpressionDepth⟩, ⟨engine.capabilities, around.perform⟩,
    options.granted, around.clock⟩

theorem executeWithin_eq (script : Script) (state : σ) (b : Budget) :
    engine.executeWithin around options maxScopeDepth maxExpressionDepth script state b =
      evaluationEnding (interpret
        ((engine.freeSetting around options maxScopeDepth maxExpressionDepth).withMaxSteps
          b.maxSteps) b.allowance script options.bindings (.start options.cancelled state)) := by
  obtain ⟨maxSteps, horizon⟩ := b
  cases maxSteps <;> rfl

theorem run_eq (program : Program) (state : σ) :
    engine.run around options program state =
      executionEnding (runProgram (engine.setting around options)
        ((engine.setting around options).limits.allowance around.horizon) program options.bindings
        (.start options.cancelled state)) := by
  unfold run
  dsimp only
  split <;> rename_i hr <;> rw [hr] <;> rfl

theorem runWithin_eq (program : Program) (state : σ) (b : Budget) :
    engine.runWithin around options maxScopeDepth maxExpressionDepth program state b =
      executionEnding (runProgram
        ((engine.freeSetting around options maxScopeDepth maxExpressionDepth).withMaxSteps
          b.maxSteps) b.allowance program options.bindings (.start options.cancelled state)) := by
  rw [runWithin, run_eq]
  obtain ⟨maxSteps, horizon⟩ := b
  cases maxSteps <;> rfl

end Engine

/-- A program compiled at level zero holds the code of a script that is not too deep. -/
theorem Engine.compile_code {engine : Engine ι} (hlevel : engine.config.level = 0) {script : Script}
    {declared : Permissions} {program : Program}
    (h : engine.compile script declared = .ok program) :
    script.depth ≤ maxNesting ∧
      CodeOfStatements program (script.statements.map Statement.expression) program.code.size := by
  rw [Engine.compile, Covenant.compile, hlevel] at h
  cases hprogram : compileScript 0 engine.capabilities script declared with
  | error fault =>
    rw [hprogram] at h
    cases h
  | ok compiled =>
    rw [hprogram] at h
    cases h
    exact compileScript_code hprogram

/-- A program compiled at level zero from a script that was read from a text ends as the script
does, if no test of a repetition has a jump in it: with the same value, output, calls and state of
the host, or with the same error up to the wording about truth values. -/
theorem Engine.run_endAlike_execute {engine : Engine ι} (hlevel : engine.config.level = 0)
    {name source : String} {script : Script} (hparse : parse name source = .ok script)
    (htests : script.TestsWithoutJumps) {declared : Permissions} {program : Program}
    (hcompile : engine.compile script declared = .ok program) (around : Surroundings ι σ)
    (options : Options) (maxScopeDepth : UInt64) {maxExpressionDepth : UInt64}
    (hdepth : 128 ≤ maxExpressionDepth) (state : σ) :
    EndAlike Budget.Covers (fun r => r.1.Settled)
      (fun r r' => r.1.Like (fun e e' => e.plain = e'.plain) r'.1 ∧ r.2 = r'.2)
      (engine.executeWithin around options maxScopeDepth maxExpressionDepth script state)
      (engine.runWithin around options maxScopeDepth maxExpressionDepth program state) := by
  obtain ⟨hnesting, hcode⟩ := compile_code hlevel hcompile
  have hlimit : maxNesting ≤ maxExpressionDepth.toNat := UInt64.le_iff_toNat_le.mp hdepth
  have hdepths (s : Statement) (hs : s ∈ script.statements) :
      s.expression.encloseTests.depth ≤ maxExpressionDepth.toNat := by
    rw [Expr.encloseTests_eq_self (htests s hs)]
    exact Nat.le_trans ((Script.depth_le_iff script _).mp hnesting s hs) hlimit
  have halike : RunsAlike (engine.freeSetting around options maxScopeDepth maxExpressionDepth)
      script.encloseTests program options.bindings (.start options.cancelled state) :=
    runProgram_runsAlike rfl (parse_placed hparse) hcode hdepths _ _
  rw [Script.encloseTests_eq_self htests] at halike
  constructor
  · intro b hsettled
    rw [executeWithin_eq] at hsettled ⊢
    obtain ⟨n, hn⟩ := halike.run_of_interpret rfl b ((settled_evaluationEnding _).mp hsettled)
    refine ⟨n, fun b' hb' => ?_⟩
    rw [runWithin_eq]
    exact (hn b' hb').like
  · intro b hsettled
    rw [runWithin_eq] at hsettled ⊢
    obtain ⟨n, hn⟩ := halike.interpret_of_run rfl b ((settled_executionEnding _).mp hsettled)
    refine ⟨n, fun b' hb' => ?_⟩
    rw [executeWithin_eq]
    exact (hn b' hb').like

/-- An engine without capabilities that compiles at level zero. -/
def Engine.bare : Engine Empty :=
  ⟨{ level := 0 }, .empty, .empty⟩

/-- A world in which nothing can be called, and time stands still. -/
def Surroundings.still : Surroundings Empty Unit :=
  ⟨fun i _ _ => i.elim, "", 0⟩

theorem Engine.run_endAlike_execute_counting :
    ∃ script program,
      parse "script" "let n = 0\nwhile n < 9 \x7b n = n + 1\nif n == 3 \x7b break \x7d \x7d" =
        .ok script ∧
      Engine.bare.compile script .none = .ok program ∧
      EndAlike Budget.Covers (fun r => r.1.Settled)
        (fun r r' => r.1.Like (fun e e' => e.plain = e'.plain) r'.1 ∧ r.2 = r'.2)
        (Engine.bare.executeWithin .still {} 256 128 script ())
        (Engine.bare.runWithin .still {} 256 128 program ()) := by
  have hcheck : (parse "script"
      "let n = 0\nwhile n < 9 \x7b n = n + 1\nif n == 3 \x7b break \x7d \x7d").toOption.any
      (fun script => script.TestsWithoutJumps &&
        (Engine.bare.compile script .none).toOption.any fun _ => true) = true := by
    decide +kernel
  obtain ⟨script, hparse, hcheck⟩ := exists_ok_of_check hcheck
  rw [Bool.and_eq_true, decide_eq_true_eq] at hcheck
  obtain ⟨program, hcompile, -⟩ := exists_ok_of_check hcheck.2
  exact ⟨script, program, hparse, hcompile,
    Engine.run_endAlike_execute rfl hparse hcheck.1 hcompile .still {} 256 (by decide) ()⟩

end Covenant
