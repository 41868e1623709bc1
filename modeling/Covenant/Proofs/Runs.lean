import Covenant.Engine
import Covenant.Proofs.Scoping
import Covenant.Proofs.Tracing

/-!
# Scripts within the default limits

With the limits by default a script of a few statements runs into none of them. It begins with its
bindings in the global scope, and if its statements lead to a result, so does the script; the
owner is shown what its ledger holds.

## Main results

* `Eval.get_globalsOf` : the bindings that a script begins with.
* `Eval.interpret_of_leads` : the result of a script from that of its statements.
* `Engine.execute_of_interpret` : what the owner is shown of a result.
-/

namespace Covenant

variable {ι σ : Type}

namespace Eval

theorem ofRun_ofExcept {α : Type} (result : Except Error α) (w : World σ) :
    ofRun (Run.ofExcept result) w = ofExcept result w := by
  cases result <;> rfl

theorem mapState_ofRun {α : Type} (run : Run σ α) (w : World σ) :
    mapState (fun w => ⟨w.scopes.pop, w.ledger⟩) (ofRun run w) =
      ofRun run ⟨w.scopes.pop, w.ledger⟩ := by
  simp only [ofRun]
  cases run w.ledger <;> rfl

theorem inTurn_singleton (last : Value) (x : Eval σ Value) : inTurn last [x] = x :=
  bind_pure x

theorem inTurn_cons_cons (last : Value) (x y : Eval σ Value) (rest : List (Eval σ Value)) :
    inTurn last (x :: y :: rest) = x >>= fun _ => inTurn .null (y :: rest) := rfl

theorem inTurn_pair (last : Value) (x y : Eval σ Value) : inTurn last [x, y] = x >>= fun _ => y :=
  congrArg (x >>= ·) (funext fun _ => bind_pure y)

/-! ### Bindings -/

theorem depth_globalsOf (bindings : Table Value) : (globalsOf bindings).depth = 1 := by
  have hdepth (scopes : Scopes Value) (hscopes : scopes.depth = 1) :
      (bindings.foldl (fun scopes entry => scopes.define entry.1 entry.2) scopes).depth = 1 := by
    induction bindings generalizing scopes with
    | nil => exact hscopes
    | cons entry bindings ih => exact ih _ ((scopes.define_written _ _).depth.trans hscopes)
  exact hdepth .empty rfl

/-- A script begins with the bindings that it is given. -/
theorem get_globalsOf {bindings : Table Value} (hascending : bindings.Ascending) {name : String}
    {v : Value} (h : Table.find? name bindings = some v) :
    (globalsOf bindings).get name = .ok v := by
  have hkept (bindings : Table Value) (hname : ∀ entry ∈ bindings, name < entry.1)
      (scopes : Scopes Value) :
      (bindings.foldl (fun scopes entry => scopes.define entry.1 entry.2) scopes).get name =
        scopes.get name := by
    induction bindings generalizing scopes with
    | nil => rfl
    | cons entry bindings ih =>
      obtain ⟨hentry, hrest⟩ := List.forall_mem_cons.mp hname
      exact (ih hrest _).trans (scopes.get_define_of_ne (String.ne_of_lt hentry).symm _)
  have hfound (scopes : Scopes Value) :
      (bindings.foldl (fun scopes entry => scopes.define entry.1 entry.2) scopes).get name =
        .ok v := by
    induction bindings generalizing scopes with
    | nil => cases h
    | cons entry bindings ih =>
      obtain ⟨habove, hrest⟩ := List.pairwise_cons.mp hascending
      rw [Table.find?] at h
      split_ifs at h with hname
      · obtain rfl := Option.some.inj h
        subst hname
        exact (hkept bindings habove _).trans (scopes.get_define_self _ _)
      · exact ih hrest h _
  exact hfound .empty

/-! ### Limits -/

/-- A setting with the limits by default. -/
theorem room_of_default {setting : Setting ι σ} (hlimits : setting.limits = {}) :
    setting.limits.maxExpressionDepth.toNat = 256 ∧ setting.limits.maxScopeDepth.toNat = 256 ∧
      setting.limits.expired? = none := by
  rw [hlimits]
  decide

/-- A script leads to what its statements lead to, if they stay within the limit on steps. -/
theorem interpret_of_leads {setting : Setting ι σ} (hlimits : setting.limits = {})
    {script : Script} {allowance : Nat} {bindings : Table Value} {l : Ledger σ}
    (hsteps : l.steps = 0) {m : Nat} (hm : m ≤ 1000000)
    {r : EStateM.Result Exit (World σ) Value}
    (h : Leads setting.limits 0 m
      (inTurn .null ((script.statements.map Statement.expression).map (eval setting allowance 0)))
      ⟨globalsOf bindings, l⟩ r) :
    ∃ k, interpret setting allowance script bindings l = mapState (World.withSteps · k) r := by
  have hmap : ((script.statements.map Statement.expression).map (eval setting allowance 0)) =
      script.statements.map fun s => eval setting allowance 0 s.expression := by
    rw [List.map_map]
    rfl
  rw [hmap, ← evalStatements_eq] at h
  refine h.exists_eq (Nat.le_of_eq hsteps) ?_
  rw [hlimits]
  rintro limit ⟨⟩
  exact hm

end Eval

/-! ### Endings -/

theorem Engine.execute_of_interpret {engine : Engine ι} {around : Surroundings ι σ}
    {options : Options} {script : Script} {state : σ} {v : Value} {w : World σ}
    (h : interpret (engine.setting around options)
      ((engine.setting around options).limits.allowance around.horizon) script options.bindings
      (.start options.cancelled state) = .ok v w) :
    engine.execute around options script state =
      (.value (w.ledger.outcome v), w.ledger.host) := by
  simp only [execute, h, endingOf]

end Covenant
