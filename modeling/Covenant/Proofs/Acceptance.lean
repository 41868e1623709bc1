import Covenant.Proofs.Equality
import Covenant.Proofs.Instantiation
import Covenant.Proofs.Rendering

/-!
# Accepted values and literals

The source form of a value is an expression for it, unless a double inside has no literal. Such a
double is written by a name, and where nothing binds that name the source form has no value at all.

A parameter's type looks at a double that is given for a number, and refuses one that has no
literal. It does not look into arrays and objects, so that among the values it takes there are some
without a source form.

## Main definitions

* `Eval.Demands` : an evaluation that ends with a value only under a condition.
* `Value.Expressible` : the source form of a value is read and executed to an equal value.

## Main results

* `Value.demands_finite` : the source form of a value has a value only if its doubles are finite.
* `ParameterType.expressible_accept_iff` : which of the values that a type takes have a source form.
* `ParameterType.exists_accept_not_expressible` : a type takes a value that has none.
-/

namespace Covenant

/-! ### Evaluations that demand something -/

namespace Eval

variable {ι σ α β : Type} {scopes : Scopes Value} {p q : Prop}

/-- From these scopes the evaluation ends with a value only under the condition, and then leaves the
scopes as they are. -/
def Demands (scopes : Scopes Value) (p : Prop) (x : Eval σ α) : Prop :=
  ∀ ledger a w, x ⟨scopes, ledger⟩ = .ok a w → w.scopes = scopes ∧ p

namespace Demands

theorem imp {x : Eval σ α} (h : Demands scopes p x) (himp : p → q) : Demands scopes q x :=
  fun ledger a w hx => (h ledger a w hx).imp_right himp

theorem pure (a : α) : Demands scopes True (pure a : Eval σ α) := by
  rintro ledger _ _ ⟨⟩
  exact ⟨rfl, trivial⟩

theorem bind {x : Eval σ α} {f : α → Eval σ β} (hx : Demands scopes p x)
    (hf : ∀ a, Demands scopes q (f a)) : Demands scopes (p ∧ q) (x >>= f) := by
  intro ledger b w h
  obtain ⟨a, ⟨scopes', ledger'⟩, ha, hb⟩ := exists_of_bind_eq_ok h
  obtain ⟨rfl, hp⟩ := hx ledger a _ ha
  exact (hf a ledger' b w hb).imp_right fun hq => ⟨hp, hq⟩

theorem ofRun (x : Run σ α) : Demands scopes True (ofRun x) := by
  intro ledger a w h
  simp only [Eval.ofRun] at h
  split at h <;> cases h
  exact ⟨rfl, trivial⟩

theorem ofExcept (result : Except Error α) : Demands scopes True (ofExcept result : Eval σ α) := by
  intro ledger a w h
  cases result <;> cases h
  exact ⟨rfl, trivial⟩

/-- A name that nothing binds has no value. -/
theorem readName {name : String} (h : scopes.lookup? name = none) :
    Demands scopes False (readName name : Eval σ Value) := by
  intro ledger a w hread
  rw [Eval.readName, Scopes.get, h] at hread
  cases hread

theorem collect {γ : Type} {f : γ → Eval σ Value} {p : γ → Prop} {items : List γ}
    (h : ∀ item ∈ items, Demands scopes (p item) (f item)) (done : List Value) :
    Demands scopes (∀ item ∈ items, p item) (collect done (items.map f)) := by
  induction items generalizing done with
  | nil => exact (pure done.reverse).imp fun _ => List.forall_mem_nil _
  | cons item items ih =>
    obtain ⟨hitem, hitems⟩ := List.forall_mem_cons.mp h
    exact (bind hitem fun value => ih hitems (value :: done)).imp List.forall_mem_cons.mpr

theorem gather {f : String × Value → Eval σ Value} {p : String × Value → Prop}
    {fields : List (String × Value)} (h : ∀ field ∈ fields, Demands scopes (p field) (f field))
    (done : Table Value) :
    Demands scopes (∀ field ∈ fields, p field)
      (gather done (fields.map fun field => (field.1, f field))) := by
  induction fields generalizing done with
  | nil => exact (pure done).imp fun _ => List.forall_mem_nil _
  | cons field fields ih =>
    obtain ⟨hfield, hfields⟩ := List.forall_mem_cons.mp h
    exact (bind hfield fun value => ih hfields _).imp List.forall_mem_cons.mpr

/-- A node demands what its construct does. -/
theorem node {setting : Setting ι σ} {allowance depth : Nat} {e : Expr}
    (h : Demands scopes p (evalNode setting allowance (eval setting allowance (depth + 1)) e)) :
    Demands scopes p (eval setting allowance depth e) := by
  rw [eval_eq]
  exact (bind ((ofRun _).bind fun _ => ofRun _) fun _ => h).imp And.right

end Demands

end Eval

/-! ### Source forms that have a value -/

variable {ι σ : Type}

namespace Value

open Eval

variable {setting : Setting ι σ} {allowance depth : Nat} {scopes : Scopes Value}

/-- A sign changes nothing about what its operand demands. -/
theorem demands_signed {p : Prop} (negative : Bool) {e : Expr}
    (h : ∀ depth, Demands scopes p (eval setting allowance depth e)) :
    Demands scopes p (eval setting allowance depth (signed negative e)) := by
  cases negative with
  | false => exact h depth
  | true => exact .node (((h (depth + 1)).bind fun _ => .ofExcept _).imp And.left)

/-- Where nothing binds the names of the doubles that have no literal, the source form of a value
has a value only if all doubles in it are finite. -/
theorem demands_finite (hundefined : scopes.lookup? "NaN" = none)
    (hinfinite : scopes.lookup? "inf" = none) {v : Value} (hcanonical : v.Canonical) :
    Demands scopes v.Finite (eval setting allowance depth v.sourceExpr) := by
  induction v generalizing depth with
  | string text | boolean flag | null =>
    exact .node ((Demands.pure _).imp fun _ => trivial)
  | integer n =>
    rw [sourceExpr]
    split
    · exact .node (((demands_signed true fun depth => .node (.pure _)).bind fun _ =>
        (Demands.node (.pure _)).bind fun _ => .ofExcept _).imp fun _ => trivial)
    · exact demands_signed _ fun depth => .node ((Demands.pure _).imp fun _ => trivial)
  | number x =>
    rw [sourceExpr]
    split_ifs with hundef hfinite
    · exact .node ((Demands.readName hundefined).imp False.elim)
    · exact demands_signed _ fun depth => .node ((Demands.pure _).imp fun _ => hfinite)
    · exact demands_signed _ fun depth => .node ((Demands.readName hinfinite).imp False.elim)
  | array items ih =>
    have hitems (item : Value) (hitem : item ∈ items) :
        Demands scopes item.Finite (eval setting allowance (depth + 1) item.sourceExpr) :=
      ih item hitem (canonicalItems_iff.mp hcanonical item hitem)
    have hcollect := (Demands.collect hitems []).imp finiteItems_iff.mpr
    rw [sourceExpr, sourceItems_eq]
    refine .node (.imp (.bind ?_ fun values => .pure (array values)) And.left)
    rw [List.map_map]
    exact hcollect
  | object fields ih =>
    obtain ⟨hascending, hcanonical⟩ := hcanonical
    have hfields (field : String × Value) (hfield : field ∈ fields) :
        Demands scopes field.2.Finite (eval setting allowance (depth + 1) field.2.sourceExpr) :=
      ih field hfield (canonicalFields_iff.mp hcanonical field hfield)
    have hgather := (Demands.gather hfields []).imp finiteFields_iff.mpr
    rw [sourceExpr_object hascending]
    refine .node (.imp (.bind ?_ fun fields => .pure (object fields)) And.left)
    rw [List.map_map]
    exact hgather

/-- The source form of the value is read as a script, and the engine executes it to a value that is
equal to it. -/
def Expressible (engine : Engine ι) (around : Surroundings ι σ) (options : Options) (state : σ)
    (name : String) (v : Value) : Prop :=
  ∃ script outcome, parse name v.render = .ok script ∧
    (engine.execute around options script state).1 = .value outcome ∧
    outcome.value.equal v = true

end Value

/-- A script of one statement ends with a value if the statement does. -/
theorem Engine.execute_eq_value_iff {engine : Engine ι} {around : Surroundings ι σ}
    {options : Options} {script : Script} {statement : Statement} {state : σ} {outcome : Outcome}
    (hstatements : script.statements = [statement]) :
    (engine.execute around options script state).1 = .value outcome ↔
      ∃ value world, eval (engine.setting around options)
        ((engine.setting around options).limits.allowance around.horizon) 0 statement.expression
          ⟨globalsOf options.bindings, .start options.cancelled state⟩ = .ok value world ∧
        outcome = world.ledger.outcome value := by
  have hinterpret : interpret (engine.setting around options)
      ((engine.setting around options).limits.allowance around.horizon) script options.bindings
        (.start options.cancelled state) =
      eval (engine.setting around options)
        ((engine.setting around options).limits.allowance around.horizon) 0 statement.expression
          ⟨globalsOf options.bindings, .start options.cancelled state⟩ := by
    rw [interpret, hstatements]
    exact congrFun (bind_pure _) _
  simp only [execute, hinterpret]
  cases eval (engine.setting around options) _ 0 statement.expression _ with
  | ok value world =>
    constructor
    · rintro ⟨⟩
      exact ⟨value, world, rfl, rfl⟩
    · rintro ⟨_, _, ⟨⟩, rfl⟩
      rfl
  | error exit world =>
    constructor
    · intro h
      simp only [endingOf] at h
      split at h <;> cases h
    · rintro ⟨_, _, ⟨⟩, -⟩

/-- What an engine without bindings and without a limit on steps makes of the source form of a
value. -/
theorem Value.expressible_iff {v : Value} (hcanonical : v.Canonical)
    (hdepth : v.depth ≤ maxNesting - 2) {engine : Engine ι} {around : Surroundings ι σ}
    {options : Options} {state : σ} {name : String}
    (hlimits : engine.limitsFor options = { maxSteps := none })
    (hbindings : options.bindings = []) :
    v.Expressible engine around options state name ↔ v.Finite := by
  obtain ⟨script, location, hparse, hstatements⟩ := parse_render hdepth name
  constructor
  · rintro ⟨script', outcome, hparse', hvalue, -⟩
    obtain rfl : script = script' := Except.ok.inj (hparse.symm.trans hparse')
    obtain ⟨value, world, heval, -⟩ := (Engine.execute_eq_value_iff hstatements).mp hvalue
    rw [hbindings] at heval
    exact (demands_finite rfl rfl hcanonical _ value world heval).2
  · intro hfinite
    have hmax : (engine.setting around options).limits.maxExpressionDepth.toNat = 256 :=
      congrArg (fun limits : Limits => limits.maxExpressionDepth.toNat) hlimits
    have hnesting : maxNesting = 128 := rfl
    have hgives : Eval.Gives (eval (engine.setting around options)
        ((engine.setting around options).limits.allowance around.horizon) 0 v.sourceExpr) v :=
      eval_sourceExpr (congrArg Limits.maxSteps hlimits) hcanonical hfinite (by omega)
    obtain ⟨world, hworld⟩ := hgives ⟨globalsOf options.bindings, .start options.cancelled state⟩
    exact ⟨script, world.ledger.outcome v, hparse,
      (Engine.execute_eq_value_iff hstatements).mpr ⟨v, world, hworld, rfl⟩, equal_self hfinite⟩

/-! ### Accepted values -/

namespace ParameterType

theorem canonical_of_accept {type : ParameterType} {v w : Value} (h : type.accept v = .ok w)
    (hcanonical : v.Canonical) : w.Canonical := by
  rw [accept] at h
  rcases haccept : type.accept? v with _ | taken
  · rw [haccept] at h
    cases h
  · rw [haccept] at h
    obtain rfl : taken = w := Except.ok.inj h
    rw [eq_widen_of_accept? haccept]
    unfold widen
    split
    · trivial
    · exact hcanonical

/-- A value that a type takes has a source form exactly if all doubles in it are finite. -/
theorem expressible_accept_iff {type : ParameterType} {v w : Value}
    (haccept : type.accept v = .ok w) (hcanonical : v.Canonical) (hdepth : w.depth ≤ 126)
    (engine : Engine ι) (around : Surroundings ι σ) (options : Options) (state : σ) (name : String)
    (hlimits : engine.limitsFor options = { maxSteps := none })
    (hbindings : options.bindings = []) :
    w.Expressible engine around options state name ↔ w.Finite :=
  Value.expressible_iff (canonical_of_accept haccept hcanonical) hdepth hlimits hbindings

/-- An engine without capabilities, templates and a limit on steps. -/
def unlimited : Engine Unit :=
  ⟨{ limits := { maxSteps := none } }, .empty, .empty⟩

/-- Surroundings in which nothing happens. -/
def idle : Surroundings Unit Unit :=
  ⟨fun _ _ state => (⟨.ok .null, false⟩, state), "", 0⟩

/-- An array with a negative zero, the least integer and a quote. -/
def nested : Value :=
  .array [.number (Double.zero true), .array [.integer Int64.minValue, .string "\""]]

theorem expressible_accept_iff_nested :
    (ParameterType.array.accept nested = .ok nested ∧ nested.Canonical ∧ nested.depth ≤ 126) ∧
      (nested.Expressible unlimited idle {} () "nested" ↔ nested.Finite) := by
  have haccept : ParameterType.array.accept nested = .ok nested := rfl
  have hcanonical : nested.Canonical := ⟨trivial, ⟨trivial, trivial, trivial⟩, trivial⟩
  have hdepth : nested.depth ≤ 126 := by decide
  exact ⟨⟨haccept, hcanonical, hdepth⟩,
    expressible_accept_iff haccept hcanonical hdepth unlimited idle {} () "nested" rfl rfl⟩

/-- The array type takes an array that holds an infinite double, which has no source form. -/
theorem exists_accept_not_expressible :
    ∃ v : Value, v = .array [.number (Double.infinity false)] ∧
      ParameterType.array.accept v = .ok v ∧ v.Canonical ∧ v.depth ≤ 126 ∧
      ¬v.Expressible unlimited idle {} () "infinite" := by
  have hcanonical : (Value.array [.number (Double.infinity false)]).Canonical :=
    ⟨trivial, trivial⟩
  have hdepth : (Value.array [.number (Double.infinity false)]).depth ≤ 126 := by decide
  refine ⟨_, rfl, rfl, hcanonical, hdepth, fun h => ?_⟩
  have hfinite : (Value.array [.number (Double.infinity false)]).Finite :=
    (Value.expressible_iff hcanonical hdepth rfl rfl).mp h
  exact Bool.false_ne_true hfinite.1

end ParameterType

end Covenant
