import Covenant.Program.Compile
import Covenant.Proofs.Emission
import Covenant.Proofs.Translation

/-!
# Whole runs of a script and of its program

Without a limit of steps, the program of a script and the script with its tests enclosed come to the
same end, or both go on: whatever number of rounds is allowed, either both have used it up, or the
program ends after some number of instructions with what the script ends with.

## Main definitions

* `Corresponds` : a script and a program have come to the same end.
* `RunsAlike` : they do so with every allowance that is enough for them, or go on.

## Main results

* `compileScript_code` : what a compiled script consists of.
* `runProgram_runsAlike` : a program runs alike with the script it was compiled from.
-/

namespace Covenant

variable {ι σ : Type}

/-- The same value, or the same error up to the wording about truth values, with ledgers that differ
in nothing but the count of steps. -/
inductive Corresponds :
    EStateM.Result Exit (World σ) Value → EStateM.Result Halt (Machine σ) Value → Prop
  | value {v : Value} {w : World σ} {m : Machine σ}
      (hledger : m.ledger = w.ledger.withSteps m.ledger.steps) :
      Corresponds (.ok v w) (.ok v m)
  | failure {e e' : Error} {w : World σ} {m : Machine σ} (hplain : e'.plain = e.plain)
      (hledger : m.ledger = w.ledger.withSteps m.ledger.steps) :
      Corresponds (.error (.fail e) w) (.error (.fail e') m)

/-- Whatever number of rounds is allowed, either both the script and the program use it up, or the
program ends, after some number of instructions and not before, with what the script ends with. -/
def RunsAlike (setting : Setting ι σ) (script : Script) (program : Program) (bindings : Table Value)
    (l : Ledger σ) : Prop :=
  ∀ allowance,
    (∃ w, interpret setting allowance script bindings l = .error .unfinished w ∧
      ∀ n ≤ allowance, ∃ m, runProgram setting n program bindings l = .error .unfinished m) ∨
    ∃ n r, Corresponds (interpret setting allowance script bindings l) r ∧
      (∀ k ≤ n, ∃ m, runProgram setting k program bindings l = .error .unfinished m) ∧
      ∀ k, n < k → runProgram setting k program bindings l = r

/-! ### Executions -/

section Executions

variable {setting : Setting ι σ} {program : Program}

/-- A machine that can go on has not ended. -/
theorem Steps.execute_unfinished {n k : Nat} {m m' : Machine σ}
    (h : Steps setting program n m m') (hk : k ≤ n) :
    ∃ m₁, Machine.execute setting program k m = .error .unfinished m₁ := by
  induction h generalizing k with
  | refl m =>
    obtain rfl : k = 0 := by omega
    exact ⟨m, rfl⟩
  | @cons n op m m₁ m₂ hop hstep _ ih =>
    cases k with
    | zero => exact ⟨m, rfl⟩
    | succ k =>
      have hget : program.code[m.pc]? = some op := hop
      simp only [Machine.execute, hget, hstep]
      exact ih (by omega)

/-- What the answer to an evaluation means for executions of any length. -/
theorem Answers.execute {rounds : Nat} {m : Machine σ} {site : Site}
    {r : EStateM.Result Exit (World σ) Value}
    (h : Answers setting program rounds (fun v => Stands site program.code.size [v])
      (fun _ _ _ => False) m r) :
    (∃ w, r = .error .unfinished w ∧
      ∀ n ≤ rounds, ∃ m', Machine.execute setting program n m = .error .unfinished m') ∨
    ∃ n r', Corresponds r r' ∧
      (∀ k ≤ n, ∃ m', Machine.execute setting program k m = .error .unfinished m') ∧
      ∀ k, n < k → Machine.execute setting program k m = r' := by
  rcases r with ⟨v, w⟩ | ⟨j | e | _, w⟩
  · obtain ⟨n, m', hsteps, hstands⟩ := h
    refine .inr ⟨n, .ok v m', .value hstands.ledger, fun k hk => hsteps.execute_unfinished hk, ?_⟩
    intro k hk
    obtain ⟨k, rfl⟩ : ∃ i, k = n + (i + 1) := ⟨k - n - 1, by omega⟩
    have hend : program.code[m'.pc]? = none := by
      rw [hstands.pc]
      exact Array.getElem?_size
    rw [hsteps.execute_eq, Machine.execute, hend]
    simp only [hstands.stack, List.headD_cons]
  · obtain ⟨n, m', -, hfalse⟩ := h
    exact hfalse.elim
  · obtain ⟨n, m₁, e', m', hsteps, hstops, hplain, hledger⟩ := h
    refine .inr ⟨n, .error (.fail e') m', .failure hplain hledger,
      fun k hk => hsteps.execute_unfinished hk, ?_⟩
    intro k hk
    obtain ⟨k, rfl⟩ : ∃ i, k = n + (i + 1) := ⟨k - n - 1, by omega⟩
    rw [hsteps.execute_eq, hstops.execute_eq]
  · obtain ⟨n, m', hle, hsteps⟩ := h
    exact .inl ⟨w, rfl, fun k hk => hsteps.execute_unfinished (Nat.le_trans hk hle)⟩

end Executions

/-! ### Compiled scripts -/

/-- What has a program is not too deep and has its calls checked, and the program consists of what
is emitted, which at every level but zero is folded before. -/
theorem compileScript_eq_ok_iff {level : UInt8} {registry : Registry ι} {script : Script}
    {declared : Permissions} {program : Program} :
    compileScript level registry script declared = .ok program ↔
      script.depth ≤ maxNesting ∧
      script.calls.forM (fun call => checkCall registry declared call.1) = .ok () ∧
      ∃ listing layout, Emit.emitScript (if level = 0 then script else script.fold)
          ⟨.empty, #[]⟩ = .ok (listing, layout) ∧
        { name := script.name, level, declared, code := listing.code, constants := layout.pool,
          sourceMap := listing.entries.toList } = program := by
  by_cases hnesting : maxNesting < script.depth
  · simp only [compileScript, hnesting, if_true, Nat.not_le.mpr hnesting, false_and, iff_false]
    exact fun h => nomatch h
  · simp only [compileScript, hnesting, if_false, Nat.not_lt.mp hnesting, true_and]
    constructor
    · intro h
      obtain ⟨_, hcalls, h⟩ := bind_eq_ok_iff.mp h
      obtain ⟨⟨listing, layout⟩, hemit, h⟩ := bind_eq_ok_iff.mp h
      exact ⟨hcalls, listing, layout, hemit, Except.ok.inj h⟩
    · rintro ⟨hcalls, listing, layout, hemit, rfl⟩
      exact bind_eq_ok_iff.mpr ⟨(), hcalls, bind_eq_ok_iff.mpr ⟨_, hemit, rfl⟩⟩

/-- A compiled script is not too deep, and its program holds the code of its statements, which at
every level but zero are folded before. -/
theorem compileScript_eq_ok {level : UInt8} {registry : Registry ι} {script : Script}
    {declared : Permissions} {program : Program}
    (h : compileScript level registry script declared = .ok program) :
    script.depth ≤ maxNesting ∧
      CodeOfStatements program
        ((if level = 0 then script else script.fold).statements.map Statement.expression)
        program.code.size := by
  obtain ⟨hdepth, -, listing, layout, hemit, rfl⟩ := compileScript_eq_ok_iff.mp h
  exact ⟨hdepth, Emit.emitScript_eq_ok hemit rfl rfl⟩

/-- A script compiled at level zero is not too deep, and its program holds the code of its
statements. -/
theorem compileScript_code {registry : Registry ι} {script : Script} {declared : Permissions}
    {program : Program} (h : compileScript 0 registry script declared = .ok program) :
    script.depth ≤ maxNesting ∧
      CodeOfStatements program (script.statements.map Statement.expression) program.code.size :=
  compileScript_eq_ok h

section Runs

variable {setting : Setting ι σ} {script : Script} {program : Program}

/-- The code of the statements of a script computes them, with their tests enclosed. -/
theorem runProgram_answers (hfree : setting.limits.maxSteps = none)
    (hplaced : ∀ s ∈ script.statements, Placed false s.expression.payload)
    (hcode : CodeOfStatements program (script.statements.map Statement.expression)
      program.code.size)
    (hdepth : ∀ s ∈ script.statements,
      s.expression.encloseTests.depth ≤ setting.limits.maxExpressionDepth.toNat)
    (allowance : Nat) (bindings : Table Value) (l : Ledger σ) :
    Answers setting program allowance (fun v => Stands ⟨.empty, [], []⟩ program.code.size [v])
      (fun _ _ _ => False) (Machine.start bindings l)
      (interpret setting allowance script.encloseTests bindings l) := by
  have hstart : Stands ⟨.empty, [], []⟩ 0 [] ⟨globalsOf bindings, l⟩ (Machine.start bindings l) :=
    ⟨rfl, rfl, rfl, scopesMatch_start bindings, rfl⟩
  have hinterpret : interpret setting allowance script.encloseTests bindings l =
      Eval.inTurn .null ((script.statements.map Statement.expression).map fun e =>
        eval setting allowance 0 e.encloseTests) ⟨globalsOf bindings, l⟩ := by
    rw [interpret, evalStatements_eq, Script.encloseTests, List.map_map, List.map_map]
    rfl
  rw [hinterpret]
  have hnever (j : Jump) (w : World σ) (m : Machine σ) (hjump : Jumped none 0 j w m) : False := by
    obtain ⟨t, ht, -⟩ := hjump
    cases ht
  generalize hes : script.statements.map Statement.expression = es at hcode
  generalize hsize : program.code.size = size at hcode
  cases hcode with
  | none hnull hpool =>
    exact .goto hfree hstart hnull (fun _ => Machine.perform_constant hpool) fun _ => .value
  | @some S₁ S₂ mid _ e rest hhead htail =>
    have hitem (item : Expr) (hmem : item ∈ e :: rest) : Placed false item.payload ∧
        0 + item.encloseTests.depth ≤ setting.limits.maxExpressionDepth.toNat := by
      rw [← hes] at hmem
      obtain ⟨s, hs, rfl⟩ := List.mem_map.mp hmem
      exact ⟨hplaced s hs, by rw [Nat.zero_add]; exact hdepth s hs⟩
    have hstatic (item : Expr) (hmem : item ∈ e :: rest) (S : Scopes UInt16) (base last : Nat)
        (S' : Scopes UInt16) (hcode : CodeOf program S base item.payload last S') : S' = S :=
      hcode.scopes_eq (hitem item hmem).1
    have hwidens := (hhead.widens (hstatic e List.mem_cons_self)).trans
      (htail.widens fun item hmem => hstatic item (List.mem_cons_of_mem _ hmem))
    obtain rfl : S₂ = .empty := hwidens.global rfl
    have hcomputes : Computes setting program allowance none ⟨.empty, [], []⟩ ⟨.empty, [], []⟩ 0
        size [] (Eval.inTurn .null
          ((e :: rest).map fun e => eval setting allowance 0 e.encloseTests)) :=
      Computes.items hfree (fun item hmem => compiles hfree (hitem item hmem).1) hstatic
        (fun S hS => ⟨by rintro ⟨⟩, by rintro t ⟨⟩⟩)
        (fun item hmem => (hitem item hmem).2) hhead htail (by rintro capacity ⟨⟩)
    exact (hcomputes _ _ hstart).mono (Nat.le_refl _) (fun _ _ _ => id) hnever

/-- A compiled program runs alike with its script, once the tests of that are enclosed. -/
theorem runProgram_runsAlike (hfree : setting.limits.maxSteps = none)
    (hplaced : ∀ s ∈ script.statements, Placed false s.expression.payload)
    (hcode : CodeOfStatements program (script.statements.map Statement.expression)
      program.code.size)
    (hdepth : ∀ s ∈ script.statements,
      s.expression.encloseTests.depth ≤ setting.limits.maxExpressionDepth.toNat)
    (bindings : Table Value) (l : Ledger σ) :
    RunsAlike setting script.encloseTests program bindings l :=
  fun allowance => (runProgram_answers hfree hplaced hcode hdepth allowance bindings l).execute

end Runs

end Covenant
