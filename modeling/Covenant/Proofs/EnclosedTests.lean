import Covenant.Proofs.Refinement

/-!
# Programs whose repetitions have jumps in their tests

In a program a repetition is open while its test is computed, so that a jump in the test belongs to
that repetition; when a script is interpreted the jump belongs to the loop around it. A program ends
as the script does in which such tests are moved into the bodies, and so as the script itself just
where that makes no difference to the script.

## Main definitions

* `SameEnds` : runs without a limit of steps that end alike, or do not end.
* `Persists` : runs that end in one way, however far they are followed.

## Main results

* `Engine.run_sameEnds_execute_encloseTests` : a program ends as the script with its tests enclosed.
* `Engine.run_sameEnds_execute_iff` : when a program ends as its script does.
* `Engine.run_not_sameEnds_execute` : a script whose program does something else.
-/

namespace Covenant

variable {ι σ β ρ : Type}

/-! ### Ends of the same kind -/

namespace EndAlike

variable {covers : β → Nat → Prop} {settled : ρ → Prop} {alike : ρ → ρ → Prop} {x y z : β → ρ}

theorem symm (hsymm : ∀ r r', alike r r' → alike r' r) (h : EndAlike covers settled alike x y) :
    EndAlike covers settled alike y x := by
  constructor
  · intro b hb
    obtain ⟨n, hn⟩ := h.2 b hb
    exact ⟨n, fun b' hb' => hsymm _ _ (hn b' hb')⟩
  · intro b hb
    obtain ⟨n, hn⟩ := h.1 b hb
    exact ⟨n, fun b' hb' => hsymm _ _ (hn b' hb')⟩

/-- The runs in the middle are compared at any budget that is large enough for the first ones. -/
theorem trans (hcovers : ∀ n, ∃ b, covers b n)
    (hsettled : ∀ r r', alike r r' → settled r ∧ settled r')
    (htrans : ∀ r r' r'', alike r r' → alike r' r'' → alike r r'')
    (hxy : EndAlike covers settled alike x y) (hyz : EndAlike covers settled alike y z) :
    EndAlike covers settled alike x z := by
  constructor
  · intro b hb
    obtain ⟨n, hn⟩ := hxy.1 b hb
    obtain ⟨b₁, hb₁⟩ := hcovers n
    obtain ⟨k, hk⟩ := hyz.1 b₁ (hsettled _ _ (hn b₁ hb₁)).2
    exact ⟨k, fun b' hb' => htrans _ _ _ (hn b₁ hb₁) (hk b' hb')⟩
  · intro b hb
    obtain ⟨n, hn⟩ := hyz.2 b hb
    obtain ⟨b₁, hb₁⟩ := hcovers n
    obtain ⟨k, hk⟩ := hxy.2 b₁ (hsettled _ _ (hn b₁ hb₁)).1
    exact ⟨k, fun b' hb' => htrans _ _ _ (hk b' hb') (hn b₁ hb₁)⟩

end EndAlike

namespace Ending.Like

variable {alike alike' : Error → Error → Prop} {r r' r'' : Ending}

theorem symm (hsymm : ∀ e e', alike e e' → alike e' e) (h : r.Like alike r') : r'.Like alike r := by
  cases r <;> cases r'
  case value.value o o' => exact ⟨h.1.symm, h.2.1.symm, h.2.2.symm⟩
  case error.error e e' => exact hsymm e e' h
  all_goals exact h.elim

theorem trans (htrans : ∀ e e' e'', alike e e' → alike e' e'' → alike e e'')
    (h : r.Like alike r') (h' : r'.Like alike r'') : r.Like alike r'' := by
  cases r <;> cases r' <;> cases r''
  case value.value.value o o' o'' =>
    exact ⟨h.1.trans h'.1, h.2.1.trans h'.2.1, h.2.2.trans h'.2.2⟩
  case error.error.error e e' e'' => exact htrans e e' e'' h h'
  all_goals first | exact h.elim | exact h'.elim

theorem mono (himp : ∀ e e', alike e e' → alike' e e') (h : r.Like alike r') :
    r.Like alike' r' := by
  cases r <;> cases r'
  case value.value o o' => exact h
  case error.error e e' => exact himp e e' h
  all_goals exact h.elim

/-- What is like something has ended. -/
theorem finished (h : r.Like alike r') : r ≠ .unfinished ∧ r' ≠ .unfinished := by
  cases r <;> cases r'
  case value.value o o' => exact ⟨nofun, nofun⟩
  case error.error e e' => exact ⟨nofun, nofun⟩
  all_goals exact h.elim

end Ending.Like

theorem Error.ctorIdx_plain (e : Error) : e.plain.ctorIdx = e.ctorIdx := by
  unfold plain
  split
  · split <;> rfl
  · rfl

/-- Runs that are followed up to a horizon end with the same value, output and calls, or with errors
of the same kind, or neither of them ends. -/
def SameEnds (x y : Nat → Ending × σ) : Prop :=
  EndAlike (fun horizon n => n ≤ horizon) (fun r => r.1 ≠ .unfinished)
    (fun r r' => r.1.Like (fun e e' => e.ctorIdx = e'.ctorIdx) r'.1) x y

namespace SameEnds

variable {x y z : Nat → Ending × σ}

theorem symm (h : SameEnds x y) : SameEnds y x :=
  EndAlike.symm (fun _ _ hlike => hlike.symm fun _ _ => Eq.symm) h

theorem trans (hxy : SameEnds x y) (hyz : SameEnds y z) : SameEnds x z :=
  EndAlike.trans (fun n => ⟨n, Nat.le_refl n⟩) (fun _ _ hlike => hlike.finished)
    (fun _ _ _ hlike hlike' => hlike.trans (fun _ _ _ => Eq.trans) hlike') hxy hyz

end SameEnds

/-- A script and a program that run alike have the same ends. -/
theorem RunsAlike.sameEnds {setting : Setting ι σ} {script : Script} {program : Program}
    {bindings : Table Value} {l : Ledger σ} (h : RunsAlike setting script program bindings l) :
    SameEnds (fun horizon => evaluationEnding (interpret setting horizon script bindings l))
      (fun horizon => executionEnding (runProgram setting horizon program bindings l)) := by
  have hkind (e e' : Error) (hplain : e.plain = e'.plain) : e.ctorIdx = e'.ctorIdx := by
    rw [← Error.ctorIdx_plain e, ← Error.ctorIdx_plain e', hplain]
  constructor
  · intro horizon hfinished
    obtain ⟨w, hunfinished, -⟩ | ⟨n, r, hr, -, hlater⟩ := h horizon
    · dsimp only at hfinished
      rw [hunfinished] at hfinished
      exact absurd rfl hfinished
    · refine ⟨n + 1, fun horizon' hn => ?_⟩
      dsimp only
      rw [hlater horizon' hn]
      exact hr.like.1.mono hkind
  · intro horizon hfinished
    have hended (m : Machine σ)
        (hm : runProgram setting horizon program bindings l = .error .unfinished m) : False := by
      dsimp only at hfinished
      rw [hm] at hfinished
      exact hfinished rfl
    -- The program has ended by now, and so has the script with every larger allowance.
    refine ⟨horizon, fun horizon' hle => ?_⟩
    obtain ⟨-, -, hunfinished⟩ | ⟨n, r, hr, hunfinished, hlater⟩ := h horizon'
    · obtain ⟨m, hm⟩ := hunfinished horizon hle
      exact (hended m hm).elim
    · have hn : n < horizon := by
        refine Nat.lt_of_not_le fun hle' => ?_
        obtain ⟨m, hm⟩ := hunfinished horizon hle'
        exact hended m hm
      dsimp only
      rw [hlater horizon hn]
      exact hr.like.1.mono hkind

/-! ### Runs that have ended -/

/-- How a run has ended does not depend on how far it is followed. -/
def Persists (x : Nat → Ending × σ) : Prop :=
  ∀ horizon horizon', horizon ≤ horizon' → (x horizon).1.Settled → x horizon' = x horizon

section Persistence

variable (engine : Engine ι) (around : Surroundings ι σ) (options : Options)
  (maxScopeDepth maxExpressionDepth : UInt64) (state : σ)

theorem Engine.executeWithin_persists (script : Script) :
    Persists fun horizon => engine.executeWithin around options maxScopeDepth maxExpressionDepth
      script state ⟨none, horizon⟩ := by
  intro horizon horizon' hle hsettled
  dsimp only at hsettled ⊢
  rw [executeWithin_eq, settled_evaluationEnding] at hsettled
  rw [executeWithin_eq, executeWithin_eq]
  exact congrArg evaluationEnding (interpret_carries
    (engine.freeSetting around options maxScopeDepth maxExpressionDepth) none hle script
    options.bindings (.start options.cancelled state) hsettled (Limits.within_of_unlimited rfl _))

theorem Engine.runWithin_persists (program : Program) :
    Persists fun horizon => engine.runWithin around options maxScopeDepth maxExpressionDepth
      program state ⟨none, horizon⟩ := by
  intro horizon horizon' hle hsettled
  dsimp only at hsettled ⊢
  rw [runWithin_eq, settled_executionEnding] at hsettled
  rw [runWithin_eq, runWithin_eq]
  exact congrArg executionEnding (runProgram_carries
    (engine.freeSetting around options maxScopeDepth maxExpressionDepth) none hle program
    options.bindings (.start options.cancelled state) hsettled (Limits.within_of_unlimited rfl _))

end Persistence

/-- The outcome of a run that has ended with a value, but for the count of steps. -/
def Ending.result : Ending → Option (Value × List String × List CallRecord)
  | .value o => some (o.value, o.output, o.calls)
  | _ => none

theorem Ending.settled_of_result {r : Ending} {result : Value × List String × List CallRecord}
    (h : r.result = some result) : r.Settled ∧ r ≠ .unfinished := by
  cases r with
  | value o => exact ⟨trivial, nofun⟩
  | error e => cases h
  | unfinished => cases h

theorem Ending.like_iff_result {alike : Error → Error → Prop} {r r' : Ending}
    {result result' : Value × List String × List CallRecord} (h : r.result = some result)
    (h' : r'.result = some result') : r.Like alike r' ↔ result = result' := by
  cases r <;> cases r'
  case value.value o o' =>
    obtain rfl := Option.some.inj h
    obtain rfl := Option.some.inj h'
    simp only [Like, Prod.mk.injEq]
  all_goals first | cases h; done | cases h'

/-- Whether a run has ended with null, without calls, and with these lines written. -/
def Ending.writes (lines : List String) : Ending → Bool
  | .value ⟨.null, output, [], _⟩ => output == lines
  | _ => false

theorem Ending.result_of_writes {lines : List String} {r : Ending}
    (h : r.writes lines = true) : r.result = some (.null, lines, []) := by
  unfold writes at h
  split at h
  · rw [result, beq_iff_eq.mp h]
  · cases h

/-- Whether a run goes on beyond the horizon. -/
def Ending.goesOn : Ending → Bool
  | .unfinished => true
  | _ => false

theorem Ending.unfinished_of_goesOn {r : Ending} (h : r.goesOn = true) : r = .unfinished := by
  cases r with
  | value o => cases h
  | error e => cases h
  | unfinished => rfl

namespace SameEnds

variable {x y : Nat → Ending × σ} {n k : Nat}
  {result result' : Value × List String × List CallRecord}

/-- Runs with values that end alike have the same results. -/
theorem result_eq (h : SameEnds x y) (hy : Persists y) (hresult : (x n).1.result = some result)
    (hresult' : (y k).1.result = some result') : result = result' := by
  obtain ⟨i, hi⟩ := h.1 n (Ending.settled_of_result hresult).2
  have hlike := hi (max i k) (Nat.le_max_left i k)
  rw [hy k (max i k) (Nat.le_max_right i k) (Ending.settled_of_result hresult').1] at hlike
  exact (Ending.like_iff_result hresult hresult').mp hlike

/-- Runs that have the same result at a horizon, and have not ended before it, end alike. -/
theorem of_result (hx : Persists x) (hy : Persists y)
    (hbefore : ∀ i < n, (x i).1 = .unfinished ∧ (y i).1 = .unfinished)
    (hresult : (x n).1.result = some result) (hresult' : (y n).1.result = some result) :
    SameEnds x y := by
  have hlater {z : Nat → Ending × σ} (hz : Persists z) (hz' : (z n).1.result = some result)
      {i : Nat} (hi : n ≤ i) : (z i).1.result = some result := by
    rw [hz n i hi (Ending.settled_of_result hz').1]
    exact hz'
  constructor
  · intro i hi
    have hn : n ≤ i := Nat.le_of_not_lt fun hlt => hi (hbefore i hlt).1
    exact ⟨n, fun j hj => (Ending.like_iff_result (hlater hx hresult hn)
      (hlater hy hresult' hj)).mpr rfl⟩
  · intro i hi
    have hn : n ≤ i := Nat.le_of_not_lt fun hlt => hi (hbefore i hlt).2
    exact ⟨n, fun j hj => (Ending.like_iff_result (hlater hx hresult hj)
      (hlater hy hresult' hn)).mpr rfl⟩

end SameEnds

/-! ### Programs and enclosed tests -/

/-- A setting with another limit of the depth of expressions. -/
def Setting.withMaxExpressionDepth (setting : Setting ι σ) (maxExpressionDepth : UInt64) :
    Setting ι σ :=
  { setting with limits := { setting.limits with maxExpressionDepth } }

/-- A machine has no expressions, so their depth does not matter to it. -/
theorem Machine.execute_withMaxExpressionDepth (setting : Setting ι σ) (maxExpressionDepth : UInt64)
    (program : Program) (n : Nat) (m : Machine σ) :
    execute (setting.withMaxExpressionDepth maxExpressionDepth) program n m =
      execute setting program n m := by
  have hstep (op : Op) (m : Machine σ) :
      step (setting.withMaxExpressionDepth maxExpressionDepth) program op m =
        step setting program op m := by
    cases op <;> rfl
  induction n generalizing m with
  | zero => rfl
  | succ n ih =>
    simp only [execute, hstep, ih]

namespace Engine

variable {engine : Engine ι}

theorem runWithin_maxExpressionDepth (around : Surroundings ι σ) (options : Options)
    (maxScopeDepth maxExpressionDepth maxExpressionDepth' : UInt64) (program : Program) (state : σ)
    (b : Budget) :
    engine.runWithin around options maxScopeDepth maxExpressionDepth program state b =
      engine.runWithin around options maxScopeDepth maxExpressionDepth' program state b := by
  rw [runWithin_eq, runWithin_eq, runProgram, runProgram,
    ← Machine.execute_withMaxExpressionDepth _ maxExpressionDepth']
  rfl

/-- A program compiled at level zero ends as the script does in which repetitions take the jumps of
their tests. Moving the tests at most doubles the depth of the script, which is at most 128. -/
theorem run_sameEnds_execute_encloseTests (hlevel : engine.config.level = 0)
    {name source : String} {script : Script} (hparse : parse name source = .ok script)
    {declared : Permissions} {program : Program}
    (hcompile : engine.compile script declared = .ok program) (around : Surroundings ι σ)
    (options : Options) (maxScopeDepth maxExpressionDepth : UInt64) (state : σ) :
    SameEnds
      (fun horizon => engine.executeWithin around options maxScopeDepth 256 script.encloseTests
        state ⟨none, horizon⟩)
      (fun horizon => engine.runWithin around options maxScopeDepth maxExpressionDepth program state
        ⟨none, horizon⟩) := by
  obtain ⟨hnesting, hcode⟩ := compile_code hlevel hcompile
  have hdepths (s : Statement) (hs : s ∈ script.statements) :
      s.expression.encloseTests.depth ≤ (256 : UInt64).toNat := by
    have hle := (Script.depth_le_iff script _).mp hnesting s hs
    calc s.expression.encloseTests.depth ≤ 2 * s.expression.depth :=
          Expr.depth_encloseTests_le s.expression
      _ ≤ 2 * maxNesting := Nat.mul_le_mul_left 2 hle
      _ = (256 : UInt64).toNat := rfl
  have halike : RunsAlike (engine.freeSetting around options maxScopeDepth 256) script.encloseTests
      program options.bindings (.start options.cancelled state) :=
    runProgram_runsAlike rfl (parse_placed hparse) hcode hdepths _ _
  have hrun (horizon : Nat) :
      engine.runWithin around options maxScopeDepth maxExpressionDepth program state
        ⟨none, horizon⟩ = executionEnding (runProgram
          (engine.freeSetting around options maxScopeDepth 256) horizon program options.bindings
          (.start options.cancelled state)) := by
    rw [runWithin_maxExpressionDepth around options maxScopeDepth maxExpressionDepth 256]
    exact runWithin_eq engine around options maxScopeDepth 256 program state ⟨none, horizon⟩
  have hexecute (horizon : Nat) :
      engine.executeWithin around options maxScopeDepth 256 script.encloseTests state
        ⟨none, horizon⟩ = evaluationEnding (interpret
          (engine.freeSetting around options maxScopeDepth 256) horizon script.encloseTests
          options.bindings (.start options.cancelled state)) :=
    executeWithin_eq engine around options maxScopeDepth 256 script.encloseTests state
      ⟨none, horizon⟩
  simp only [hrun, hexecute]
  exact halike.sameEnds

/-- A program compiled at level zero ends as its script does, whatever jumps there are in tests,
exactly if the script ends as it does when its repetitions take the jumps of their tests. -/
theorem run_sameEnds_execute_iff (hlevel : engine.config.level = 0)
    {name source : String} {script : Script} (hparse : parse name source = .ok script)
    {declared : Permissions} {program : Program}
    (hcompile : engine.compile script declared = .ok program) (around : Surroundings ι σ)
    (options : Options) (maxScopeDepth maxExpressionDepth : UInt64) (state : σ) :
    SameEnds
      (fun horizon => engine.executeWithin around options maxScopeDepth maxExpressionDepth script
        state ⟨none, horizon⟩)
      (fun horizon => engine.runWithin around options maxScopeDepth maxExpressionDepth program state
        ⟨none, horizon⟩) ↔
    SameEnds
      (fun horizon => engine.executeWithin around options maxScopeDepth maxExpressionDepth script
        state ⟨none, horizon⟩)
      (fun horizon => engine.executeWithin around options maxScopeDepth 256 script.encloseTests
        state ⟨none, horizon⟩) := by
  have h := run_sameEnds_execute_encloseTests hlevel hparse hcompile around options maxScopeDepth
    maxExpressionDepth state
  exact ⟨fun hrun => hrun.trans h.symm, fun hexecute => hexecute.trans h⟩

end Engine

/-- Here the test has a jump too, but it does not matter which of the loops is left. -/
theorem Engine.run_sameEnds_execute_leaving :
    ∃ script program,
      parse "script" "loop \x7b while \x7b break \x7d \x7b \x7d\nbreak \x7d\nprint(\"x\")" =
        .ok script ∧
      Engine.bare.compile script .none = .ok program ∧
      SameEnds
        (fun horizon => Engine.bare.executeWithin .still {} 256 256 script () ⟨none, horizon⟩)
        (fun horizon => Engine.bare.runWithin .still {} 256 256 program () ⟨none, horizon⟩) := by
  have hcheck : (parse "script"
      "loop \x7b while \x7b break \x7d \x7b \x7d\nbreak \x7d\nprint(\"x\")").toOption.any
      (fun script =>
        [script, script.encloseTests].all (fun script =>
          (Engine.bare.executeWithin .still {} 256 256 script () ⟨none, 0⟩).1.goesOn &&
          (Engine.bare.executeWithin .still {} 256 256 script () ⟨none, 1⟩).1.writes ["x"]) &&
        (Engine.bare.compile script .none).toOption.any fun _ => true) = true := by
    decide +kernel
  obtain ⟨script, hparse, hcheck⟩ := exists_ok_of_check hcheck
  simp only [List.all_cons, List.all_nil, Bool.and_true, Bool.and_eq_true] at hcheck
  obtain ⟨⟨⟨hbefore, hwrites⟩, hbefore', hwrites'⟩, hcheck⟩ := hcheck
  obtain ⟨program, hcompile, -⟩ := exists_ok_of_check hcheck
  refine ⟨script, program, hparse, hcompile,
    (Engine.run_sameEnds_execute_iff rfl hparse hcompile .still {} 256 256 ()).mpr ?_⟩
  refine .of_result (Engine.executeWithin_persists _ _ _ _ _ _ script)
    (Engine.executeWithin_persists _ _ _ _ _ _ script.encloseTests) ?_
    (Ending.result_of_writes hwrites) (Ending.result_of_writes hwrites')
  intro i hi
  obtain rfl : i = 0 := by omega
  exact ⟨Ending.unfinished_of_goesOn hbefore, Ending.unfinished_of_goesOn hbefore'⟩

/-- Of the loops of this script the outer one is left when it is interpreted, and the inner one when
its program is run. -/
theorem Engine.run_not_sameEnds_execute :
    ∃ script program,
      parse "script" "loop \x7b while \x7b break \x7d \x7b \x7d\nprint(\"x\")\nbreak \x7d" =
        .ok script ∧
      Engine.bare.compile script .none = .ok program ∧
      ¬ SameEnds
        (fun horizon => Engine.bare.executeWithin .still {} 256 256 script () ⟨none, horizon⟩)
        (fun horizon => Engine.bare.runWithin .still {} 256 256 program () ⟨none, horizon⟩) := by
  have hcheck : (parse "script"
      "loop \x7b while \x7b break \x7d \x7b \x7d\nprint(\"x\")\nbreak \x7d").toOption.any
      (fun script =>
        (Engine.bare.executeWithin .still {} 256 256 script () ⟨none, 1⟩).1.writes [] &&
        (Engine.bare.compile script .none).toOption.any fun program =>
          (Engine.bare.runWithin .still {} 256 256 program () ⟨none, 20⟩).1.writes ["x"]) =
      true := by
    decide +kernel
  obtain ⟨script, hparse, hcheck⟩ := exists_ok_of_check hcheck
  obtain ⟨hexecute, hcheck⟩ := (Bool.and_eq_true _ _).mp hcheck
  obtain ⟨program, hcompile, hrun⟩ := exists_ok_of_check hcheck
  refine ⟨script, program, hparse, hcompile, fun h => ?_⟩
  have heq := h.result_eq (Engine.runWithin_persists _ _ _ _ _ _ program)
    (Ending.result_of_writes hexecute) (Ending.result_of_writes hrun)
  cases heq

end Covenant
