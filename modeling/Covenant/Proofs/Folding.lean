import Covenant.Program.Fold
import Covenant.Proofs.Counter

/-!
# Folding keeps the meaning of scripts

A folded script ends as the script itself does, with the same output, calls and bindings, after no
more steps. This is said of runs that are neither cancelled nor cut short by a budget of steps or of
depth, since a folded script spends less of both and passes fewer checkpoints.

Folding is folding of the parts and then one step at the root (`Expr.reduce`). Evaluations that are
lighter than others (`Lighter`) are so in every construct, and the step at the root only leaves out
parts that settle on a value without effect.

## Main definitions

* `CutShort` : a result that a cancellation or a budget has decided.
* `Lighter` : an evaluation that ends as another does after no more steps.
* `Settles` : an evaluation whose only effect is to charge steps.
* `Expr.reduce` : folding at the root.

## Main results

* `lighter_congruence` : constructs with lighter parts are lighter.
* `Expr.refines_reduce` : folding at the root makes an expression lighter.
* `interpret_fold` : a folded script ends as the script does.
-/

namespace Covenant

open Eval

variable {ι σ α β : Type}

/-! ### Folding at the root -/

namespace Expr

/-- Folding at the root of an expression whose parts are folded. -/
def reduce : Expr → Expr
  | binary left op right => foldBinary left op right
  | unary op operand => foldUnary op operand
  | cond test yes no => foldCond test yes no
  | loop (some test) body =>
    if test.flag? = some false then literal .null else loop (some test) body
  | object entries => foldObject entries
  | array items => foldArray items
  | e => e

theorem foldAll_eq (done es : List Expr) : foldAll done es = done.reverse ++ es.map fold := by
  induction es generalizing done with
  | nil => simp [foldAll]
  | cons e rest ih => simp [foldAll, ih]

theorem foldEntries_eq (done entries : List (String × Expr)) :
    foldEntries done entries =
      done.reverse ++ entries.map fun entry => (entry.1, entry.2.fold) := by
  induction entries generalizing done with
  | nil => simp [foldEntries]
  | cons entry rest ih => simp [foldEntries, ih]

/-- Folding is folding of the parts and then of the root. -/
theorem fold_eq (e : Expr) : e.fold = (e.mapParts fold).reduce := by
  cases e with
  | call name args => simp [fold, mapParts, reduce, foldAll_eq]
  | block items => simp [fold, mapParts, reduce, foldAll_eq]
  | object entries => simp [fold, mapParts, reduce, foldEntries_eq]
  | array items => simp [fold, mapParts, reduce, foldAll_eq]
  | cond test yes no => cases no <;> simp [fold, mapParts, reduce]
  | loop test body => cases test <;> simp [fold, mapParts, reduce]
  | _ => simp [fold, mapParts, reduce]

theorem eq_literal_of_literal? {e : Expr} {value : Value} (h : e.literal? = some value) :
    e = literal value := by
  cases e <;> simp_all [literal?]

theorem eq_literal_of_flag? {e : Expr} {flag : Bool} (h : e.flag? = some flag) :
    e = literal (.boolean flag) := by
  obtain ⟨value, hvalue, hflag⟩ := Option.bind_eq_some_iff.mp h
  cases value <;> simp_all [Value.boolean?, eq_literal_of_literal? hvalue]

end Expr

/-! ### Lighter evaluations -/

/-- The ways to end for want of steps, of depth or of rounds. -/
def Exit.OutOfBudget : Exit → Prop
  | .fail (.exhausted .steps _) | .fail (.exhausted .expressionDepth _) | .unfinished => True
  | _ => False

/-- The run has been cancelled, or a budget of steps, of depth or of rounds has run out. -/
def CutShort : EStateM.Result Exit (World σ) α → Prop
  | .ok _ w => w.ledger.cancelled = true
  | .error exit w => w.ledger.cancelled = true ∨ exit.OutOfBudget

theorem CutShort.of_cancelled {r : EStateM.Result Exit (World σ) α}
    (h : (reached r).ledger.cancelled = true) : CutShort r := by
  cases r with
  | ok a w => exact h
  | error exit w => exact .inl h

theorem cutShort_mapState_withSteps {r : EStateM.Result Exit (World σ) α} {k : Nat} :
    CutShort (mapState (World.withSteps · k) r) ↔ CutShort r := by
  cases r <;> rfl

/-- Where the first evaluation is not cut short, the second one ends in the same way after no more
steps, if it starts after no more. -/
structure Lighter (x x' : Eval σ α) : Prop where
  stays_cancelled (w : World σ) :
    w.ledger.cancelled = true → (reached (x w)).ledger.cancelled = true
  same (w : World σ) (k : Nat) : k ≤ w.ledger.steps →
    CutShort (x w) ∨ ∃ k' ≤ (reached (x w)).ledger.steps,
      x' (w.withSteps k) = mapState (World.withSteps · k') (x w)

namespace Lighter

/-- An evaluation that does not look at the count of steps. -/
theorem of_uncounted {x : Eval σ α} (hsteps : ∀ k, Follows (World.withSteps · k) x x)
    (hcancelled : ∀ w, w.ledger.cancelled = true → (reached (x w)).ledger.cancelled = true) :
    Lighter x x where
  stays_cancelled := hcancelled
  same w k hk := by
    have hkept : (reached (x w)).ledger.steps = w.ledger.steps := by
      have h := congrArg (fun r => (reached r).ledger.steps) (hsteps w.ledger.steps w)
      simpa using h
    exact .inr ⟨k, by rw [hkept]; exact hk, hsteps k w⟩

/-- An evaluation that changes nothing on the ledger. -/
theorem of_ledger_kept {x : Eval σ α} (hsteps : ∀ k, Follows (World.withSteps · k) x x)
    (hledger : ∀ w, (reached (x w)).ledger = w.ledger) : Lighter x x :=
  of_uncounted hsteps fun w hw => by rw [hledger, hw]

theorem bind {x x' : Eval σ α} {f f' : α → Eval σ β} (hx : Lighter x x')
    (hf : ∀ a, Lighter (f a) (f' a)) : Lighter (x >>= f) (x' >>= f') where
  stays_cancelled w hw := by
    have h := hx.stays_cancelled w hw
    cases hr : x w with
    | ok a w₁ =>
      rw [hr] at h
      rw [bind_of_ok hr]
      exact (hf a).stays_cancelled w₁ h
    | error e w₁ =>
      rw [hr] at h
      rw [bind_of_error hr]
      exact h
  same w k hk := by
    have h := hx.same w k hk
    cases hr : x w with
    | ok a w₁ =>
      rw [hr] at h
      rw [bind_of_ok hr]
      obtain hcut | ⟨k', hk', h⟩ := h
      · exact .inl (.of_cancelled ((hf a).stays_cancelled w₁ hcut))
      · rw [bind_of_ok h]
        exact (hf a).same w₁ k' hk'
    | error e w₁ =>
      rw [hr] at h
      rw [bind_of_error hr]
      obtain hcut | ⟨k', hk', h⟩ := h
      · exact .inl hcut
      · exact .inr ⟨k', hk', by rw [bind_of_error h]; rfl⟩

theorem trans {x y z : Eval σ α} (hxy : Lighter x y) (hyz : Lighter y z) : Lighter x z where
  stays_cancelled := hxy.stays_cancelled
  same w k hk := by
    obtain hcut | ⟨k₁, hk₁, hy⟩ := hxy.same w w.ledger.steps (Nat.le_refl _)
    · exact .inl hcut
    rw [World.withSteps_self] at hy
    obtain hcut | ⟨k₂, hk₂, hz⟩ := hyz.same w k hk
    · rw [hy, cutShort_mapState_withSteps] at hcut
      exact .inl hcut
    · refine .inr ⟨k₂, ?_, ?_⟩
      · rw [hy] at hk₂
        simp only [reached_mapState, World.withSteps_ledger, Ledger.withSteps_steps] at hk₂
        omega
      · rw [hz, hy]
        cases x w <;> rfl

theorem framed {x x' : Eval σ α} (hx : Lighter x x') : Lighter (framed x) (framed x') where
  stays_cancelled w hw := by
    simpa only [Eval.framed, reached_mapState] using hx.stays_cancelled ⟨w.scopes.push, w.ledger⟩ hw
  same w k hk := by
    have h := hx.same ⟨w.scopes.push, w.ledger⟩ k hk
    simp only [Eval.framed]
    obtain hcut | ⟨k', hk', h⟩ := h
    · left
      cases hr : x ⟨w.scopes.push, w.ledger⟩ <;> rw [hr] at hcut <;> exact hcut
    · refine .inr ⟨k', by simpa only [reached_mapState] using hk', ?_⟩
      have hworld : (World.withSteps ⟨w.scopes.push, w.ledger⟩ k : World σ) =
        ⟨(w.withSteps k).scopes.push, (w.withSteps k).ledger⟩ := rfl
      rw [← hworld, h]
      cases x ⟨w.scopes.push, w.ledger⟩ <;> rfl

theorem loopBody {x x' : Eval σ α} (hx : Lighter x x') : Lighter (loopBody x) (loopBody x') where
  stays_cancelled w hw := by
    simpa only [loopBody_eq, reached_takeJump] using hx.stays_cancelled w hw
  same w k hk := by
    simp only [loopBody_eq, reached_takeJump]
    obtain hcut | ⟨k', hk', h⟩ := hx.same w k hk
    · left
      cases hr : x w with
      | ok a w₁ => rw [hr] at hcut; exact hcut
      | error e w₁ =>
        rw [hr] at hcut
        obtain hcut | hcut := hcut
        · exact .of_cancelled (by simpa using hcut)
        · cases e with
          | jump j => exact hcut.elim
          | fail e => exact .inr hcut
          | unfinished => exact .inr trivial
    · exact .inr ⟨k', hk', by rw [h, takeJump_mapState]⟩

/-- A lighter round makes a repetition lighter. -/
theorem repeatWhile {x x' : Eval σ Bool} (hx : Lighter x x') (n : Nat) :
    Lighter (repeatWhile x n) (repeatWhile x' n) := by
  induction n with
  | zero => exact ⟨fun _ hw => hw, fun _ _ _ => .inl (.inr trivial)⟩
  | succ n ih =>
    refine hx.bind fun goesOn => ?_
    cases goesOn with
    | true => exact ih
    | false => exact .of_ledger_kept (fun _ => .pure _) fun _ => rfl

/-- Entering a node at no greater depth. -/
theorem enter (setting : Setting ι σ) {d d' : Nat} (hd : d' ≤ d) :
    Lighter (enter setting d) (enter setting d') where
  stays_cancelled w hw := by rwa [enter_reached]
  same w k hk := by
    rw [enter_reached]
    obtain hsteps | ⟨limit, hlimit, h⟩ :=
      Run.within_or_exceeded setting.limits (w.ledger.steps + 1)
    · by_cases hdepth : d ≤ setting.limits.maxExpressionDepth.toNat
      · refine .inr ⟨k + 1, Nat.succ_le_succ hk, ?_⟩
        rw [enter_of_within hsteps hdepth,
          enter_of_within (hsteps.mono (Nat.succ_le_succ hk)) (Nat.le_trans hd hdepth)]
        rfl
      · exact .inl (by rw [enter_of_too_deep hsteps (by omega)]; exact .inr trivial)
    · exact .inl (by rw [enter_of_exceeded hlimit h]; exact .inr trivial)

theorem jump (j : Jump) : Lighter (throw (.jump j) : Eval σ α) (throw (.jump j)) :=
  .of_ledger_kept (fun _ => .throw _) fun _ => rfl

end Lighter

theorem lighter_compatible (setting : Setting ι σ) :
    Compatible setting setting (fun _ => Lighter) where
  pure _ := .of_ledger_kept (fun _ => .pure _) fun _ => rfl
  bind := .bind
  ofExcept r := .of_ledger_kept (fun _ => ofExcept_follows _ r) fun w => by rw [ofExcept_reached]
  readName name := .of_ledger_kept (fun _ => readName_follows _ name) fun w => by
    rw [readName, ofExcept_reached]
  define name value := .of_ledger_kept (fun _ => define_follows _ name value) fun _ => rfl
  assign name value :=
    .of_ledger_kept (fun _ => assign_follows _ name value) (assign_reached name value)
  call name args := by
    refine .of_uncounted (fun k => ofRun_follows _ (Run.call_uncounted k setting name args)) ?_
    intro w hw
    rw [ofRun_reached]
    exact Run.call_cancelled setting name args w.ledger hw
  checkpoint := by
    have hsteps (k : Nat) := Run.checkpoint_follows (Ledger.withSteps (σ := σ) · k) (fun _ => rfl)
      setting.limits
    refine .of_ledger_kept (fun k => ofRun_follows _ (hsteps k)) fun w => ?_
    rw [ofRun_reached, Run.checkpoint_reached]
  checkScope := by
    refine .of_ledger_kept (fun k w => ?_) fun w => ?_
    · have hsteps := Run.checkScopeDepth_follows (Ledger.withSteps (σ := σ) · k)
        setting.limits w.scopes.depth
      exact ofRun_follows _ hsteps w
    · exact (ofRun_reached _ w).trans (Run.checkScopeDepth_reached _ _ _)
  framed := .framed
  loopBody := .loopBody

/-- Constructs with lighter parts are lighter, at every smaller depth. -/
theorem lighter_congruence (setting : Setting ι σ) (allowance : Nat) :
    Congruence setting setting allowance allowance (fun d d' => d' ≤ d) (fun _ => Lighter)
      Lighter where
  toCompatible := lighter_compatible setting
  deeper := Nat.succ_le_succ
  enter hd hx := (Lighter.enter setting hd).bind fun _ => hx
  weaken := id
  repeatWhile part part' test _ _ htest hbody :=
    ((lighter_compatible setting).round part part' test _ _ htest hbody).repeatWhile allowance

/-! ### Evaluations that settle on a value -/

/-- Unless it is cut short, the evaluation gives the value, and all it does is to charge steps. -/
def Settles (x : Eval σ α) (a : α) : Prop :=
  ∀ w, ∃ k ≥ w.ledger.steps, x w = .ok a (w.withSteps k) ∨
    ∃ exit, x w = .error exit (w.withSteps k) ∧ (w.ledger.cancelled = true ∨ exit.OutOfBudget)

namespace Settles

theorem pure (a : α) : Settles (pure a : Eval σ α) a :=
  fun w => ⟨w.ledger.steps, Nat.le_refl _, .inl rfl⟩

theorem ofExcept {result : Except Error α} {a : α} (h : result = .ok a) :
    Settles (ofExcept result : Eval σ α) a := by
  subst h
  exact .pure a

theorem bind {x : Eval σ α} {f : α → Eval σ β} {a : α} {b : β} (hx : Settles x a)
    (hf : Settles (f a) b) : Settles (x >>= f) b := by
  intro w
  obtain ⟨k, hk, hok | ⟨exit, herror, hcut⟩⟩ := hx w
  · obtain ⟨k', hk', h⟩ := hf (w.withSteps k)
    simp only [World.withSteps_ledger, Ledger.withSteps_steps, World.withSteps_withSteps] at hk' h
    rw [bind_of_ok hok]
    exact ⟨k', Nat.le_trans hk hk', h⟩
  · exact ⟨k, hk, .inr ⟨exit, bind_of_error herror, hcut⟩⟩

theorem enter (setting : Setting ι σ) (d : Nat) : Settles (enter setting d) () := by
  intro w
  refine ⟨w.ledger.steps + 1, Nat.le_succ _, ?_⟩
  obtain hsteps | ⟨limit, hlimit, h⟩ :=
    Run.within_or_exceeded setting.limits (w.ledger.steps + 1)
  · by_cases hdepth : d ≤ setting.limits.maxExpressionDepth.toNat
    · exact .inl (enter_of_within hsteps hdepth)
    · exact .inr ⟨_, enter_of_too_deep hsteps (by omega), .inr trivial⟩
  · exact .inr ⟨_, enter_of_exceeded hlimit h, .inr trivial⟩

/-- Without a deadline, a checkpoint only looks for a cancellation. -/
theorem checkpoint {limits : Limits} (hdeadline : limits.maxDuration = none) :
    Settles (ofRun (Run.checkpoint limits) : Eval σ Unit) () := by
  rintro ⟨scopes, steps, cancelled, output, calls, host⟩
  refine ⟨steps, Nat.le_refl _, ?_⟩
  cases cancelled with
  | true => exact .inr ⟨.fail .cancelled, rfl, .inl rfl⟩
  | false =>
    left
    simp only [ofRun, Run.checkpoint, Limits.expired?, hdeadline]
    rfl

theorem literal (setting : Setting ι σ) (allowance d : Nat) (value : Value) :
    Settles (eval setting allowance d (.literal value)) value := by
  rw [eval_eq]
  exact (enter setting (d + 1)).bind (.pure value)

theorem truth {x : Eval σ Value} {flag : Bool} (hx : Settles x (.boolean flag))
    (context : String) : Settles (truth context x) flag :=
  hx.bind (.ofExcept rfl)

/-- Literals settle on their values, one after the other. -/
theorem collect (setting : Setting ι σ) (allowance d : Nat) {es : List Expr}
    {values : List Value} (h : es.mapM Expr.literal? = some values) (done : List Value) :
    Settles (collect done (es.map (eval setting allowance d))) (done.reverse ++ values) := by
  induction es generalizing done values with
  | nil =>
    obtain rfl : [] = values := by simpa using h
    rw [List.append_nil]
    exact .pure _
  | cons e rest ih =>
    simp only [List.mapM_cons, Option.bind_eq_bind, Option.bind_eq_some_iff, Option.pure_def,
      Option.some.injEq] at h
    obtain ⟨value, hvalue, values, hvalues, rfl⟩ := h
    obtain rfl := Expr.eq_literal_of_literal? hvalue
    have hrest := ih hvalues (value :: done)
    rw [List.reverse_cons, List.append_assoc] at hrest
    exact (literal setting allowance d value).bind hrest

theorem gather (setting : Setting ι σ) (allowance d : Nat) {entries : List (String × Expr)}
    {fields : List (String × Value)}
    (h : (entries.mapM fun (key, e) => e.literal?.map (key, ·)) = some fields)
    (done : Table Value) :
    Settles (gather done (entries.map fun entry => (entry.1, eval setting allowance d entry.2)))
      (fields.foldl (fun table field => table.insert field.1 field.2) done) := by
  induction entries generalizing done fields with
  | nil =>
    obtain rfl : [] = fields := by simpa using h
    exact .pure _
  | cons entry rest ih =>
    simp only [List.mapM_cons, Option.bind_eq_bind, Option.bind_eq_some_iff, Option.pure_def,
      Option.some.injEq, Option.map_eq_some_iff] at h
    obtain ⟨_, ⟨value, hvalue, rfl⟩, fields, hfields, rfl⟩ := h
    obtain ⟨key, e⟩ := entry
    obtain rfl : e = .literal value := Expr.eq_literal_of_literal? hvalue
    exact (literal setting allowance d value).bind (ih hfields _)

/-- What comes after an evaluation that settles is lighter alone. -/
theorem lighter_bind {x : Eval σ α} {f : α → Eval σ β} {a : α} {y : Eval σ β}
    (hx : Settles x a) (hf : Lighter (f a) y) : Lighter (x >>= f) y where
  stays_cancelled w hw := by
    obtain ⟨k, -, hok | ⟨exit, herror, -⟩⟩ := hx w
    · rw [bind_of_ok hok]
      exact hf.stays_cancelled _ hw
    · rw [bind_of_error herror]
      exact hw
  same w k hk := by
    obtain ⟨k₁, hk₁, hok | ⟨exit, herror, hcut⟩⟩ := hx w
    · rw [bind_of_ok hok]
      exact hf.same (w.withSteps k₁) k (Nat.le_trans hk hk₁)
    · rw [bind_of_error herror]
      exact .inl hcut

/-- The value alone is lighter than an evaluation that settles on it. -/
theorem lighter_pure {x : Eval σ α} {a : α} (hx : Settles x a) : Lighter x (Pure.pure a) := by
  have h : Lighter (x >>= Pure.pure) (Pure.pure a) :=
    hx.lighter_bind (.of_ledger_kept (fun _ => .pure a) fun _ => rfl)
  rwa [bind_pure] at h

end Settles

/-! ### Folding -/

namespace Expr

variable {setting : Setting ι σ} {allowance : Nat}

/-- The second expression is lighter than the first, at every smaller depth. -/
def Refines (setting : Setting ι σ) (allowance : Nat) (e e' : Expr) : Prop :=
  ∀ d d', d' ≤ d → Lighter (eval setting allowance d e) (eval setting allowance d' e')

theorem Refines.refl (e : Expr) : Refines setting allowance e e :=
  (lighter_congruence setting allowance).eval e fun j _ => .jump j

theorem Refines.trans {e e' e'' : Expr} (h : Refines setting allowance e e')
    (h' : Refines setting allowance e' e'') : Refines setting allowance e e'' :=
  fun d d' hd => (h d d (Nat.le_refl d)).trans (h' d d' hd)

/-- A literal in place of a node that settles on its value. -/
theorem Refines.of_settles {e : Expr} {value : Value}
    (h : ∀ d, Settles (evalNode setting allowance (eval setting allowance d) e) value) :
    Refines setting allowance e (literal value) := by
  intro d d' hd
  rw [eval_eq, eval_eq]
  exact (Lighter.enter setting (Nat.succ_le_succ hd)).bind fun _ => (h (d + 1)).lighter_pure

/-- Lighter parts make an expression lighter. -/
theorem refines_mapParts {f : Expr → Expr} {e : Expr}
    (h : ∀ part ∈ e.children, Refines setting allowance part (f part)) :
    Refines setting allowance e (e.mapParts f) := by
  intro d d' hd
  rw [eval_eq, eval_eq, evalNode_mapParts]
  have hd' := Nat.succ_le_succ hd
  exact (lighter_congruence setting allowance).enter hd'
    ((lighter_congruence setting allowance).evalNode _ _ e (fun j _ => .jump j)
      fun c hc => h c hc _ _ hd')

/-- Where the left operand does not decide, a logical operation gives the right one. -/
theorem right_of_undecided {op : BinaryOp} {flag : Bool} {b value : Value}
    (hlogical : op.isLogical = true) (hdecides : op.decides flag = false)
    (happly : op.apply (.boolean flag) b = .ok value) :
    ∃ right, b = .boolean right ∧ value = .boolean right := by
  cases b with
  | boolean right =>
    refine ⟨right, rfl, ?_⟩
    cases op <;> cases flag <;> cases hlogical <;> cases hdecides <;> cases happly <;> rfl
  | _ => cases op <;> cases flag <;> cases hlogical <;> cases hdecides <;> cases happly

/-- A logical operation on literals that is folded settles on its result. -/
theorem settles_logical {op : BinaryOp} {flag : Bool} {b value : Value} (d : Nat)
    (hlogical : op.isLogical = true) (happly : op.apply (.boolean flag) b = .ok value)
    (hdecides : op.decides flag = false) :
    Settles (logical op (eval setting allowance d (literal (.boolean flag)))
      (eval setting allowance d (literal b))) value := by
  obtain ⟨right, rfl, rfl⟩ := right_of_undecided hlogical hdecides happly
  refine ((Settles.literal _ _ d _).truth _).bind ?_
  simp only [hdecides, Bool.false_eq_true, if_false]
  exact ((Settles.literal _ _ d _).truth _).bind (.pure _)

theorem refines_foldBinary (left : Expr) (op : BinaryOp) (right : Expr) :
    Refines setting allowance (binary left op right) (foldBinary left op right) := by
  unfold foldBinary
  split
  · exact .refl _
  rename_i a ha
  obtain rfl := eq_literal_of_literal? ha
  cases hlogical : op.isLogical with
  | false =>
    simp only [Bool.false_eq_true, if_false]
    split
    · rename_i b hb
      obtain rfl := eq_literal_of_literal? hb
      split
      · rename_i value hvalue
        refine .of_settles fun d => ?_
        simp only [evalNode, hlogical, Bool.false_eq_true, if_false]
        exact (Settles.literal _ _ d a).bind ((Settles.literal _ _ d b).bind (.ofExcept hvalue))
      · exact .refl _
    · exact .refl _
  | true =>
    simp only [if_true]
    split
    · rename_i flag hflag
      obtain rfl : a = .boolean flag := by cases a <;> simp_all [Value.boolean?]
      cases hdecides : op.decides flag with
      | true =>
        simp only [if_true]
        refine .of_settles fun d => ?_
        simp only [evalNode, hlogical, if_true]
        refine ((Settles.literal _ _ d _).truth _).bind ?_
        simp only [hdecides, if_true]
        exact .pure _
      | false =>
        simp only [Bool.false_eq_true, if_false]
        split
        · rename_i b hb
          obtain rfl := eq_literal_of_literal? hb
          split
          · rename_i value hvalue
            refine .of_settles fun d => ?_
            simp only [evalNode, hlogical, if_true]
            exact settles_logical d hlogical hvalue hdecides
          · exact .refl _
        · exact .refl _
    · exact .refl _

theorem refines_foldUnary (op : UnaryOp) (operand : Expr) :
    Refines setting allowance (unary op operand) (foldUnary op operand) := by
  unfold foldUnary
  split
  · rename_i a ha
    obtain rfl := eq_literal_of_literal? ha
    split
    · rename_i value hvalue
      exact .of_settles fun d => (Settles.literal _ _ _ a).bind (.ofExcept hvalue)
    · exact .refl _
  · exact .refl _

theorem refines_foldArray (items : List Expr) :
    Refines setting allowance (array items) (foldArray items) := by
  unfold foldArray
  split
  · rename_i values hvalues
    exact .of_settles fun d => (Settles.collect _ _ d hvalues []).bind (.pure _)
  · exact .refl _

theorem refines_foldObject (entries : List (String × Expr)) :
    Refines setting allowance (object entries) (foldObject entries) := by
  unfold foldObject
  split
  · rename_i fields hfields
    exact .of_settles fun d => (Settles.gather _ _ d hfields []).bind (.pure _)
  · exact .refl _

/-- A choice whose test is known is no lighter than the branch taken. -/
theorem refines_foldCond (test yes : Expr) (no : Option Expr) :
    Refines setting allowance (cond test yes no) (foldCond test yes no) := by
  unfold foldCond
  split
  · rename_i htest
    obtain rfl := eq_literal_of_flag? htest
    intro d d' hd
    rw [eval_eq]
    refine (Settles.enter setting (d + 1)).lighter_bind ?_
    refine ((Settles.literal _ _ _ _).truth _).lighter_bind ?_
    exact Refines.refl yes (d + 1) d' (by omega)
  · rename_i htest
    obtain rfl := eq_literal_of_flag? htest
    cases no with
    | none => exact .of_settles fun d => ((Settles.literal _ _ d _).truth _).bind (.pure _)
    | some e =>
      intro d d' hd
      rw [eval_eq]
      refine (Settles.enter setting (d + 1)).lighter_bind ?_
      refine ((Settles.literal _ _ _ _).truth _).lighter_bind ?_
      exact Refines.refl e (d + 1) d' (by omega)
  · exact .refl _

/-- Without a deadline, a repetition whose test is false ends at once. -/
theorem settles_repeatWhile (hdeadline : setting.limits.maxDuration = none) {test : Eval σ Value}
    (htest : Settles test (.boolean false)) (body : Eval σ Value) (n : Nat) :
    Settles (repeatWhile (round setting.limits (some test) body) n) () := by
  cases n with
  | zero => exact fun w => ⟨w.ledger.steps, Nat.le_refl _, .inr ⟨.unfinished, rfl, .inr trivial⟩⟩
  | succ n =>
    have hround : Settles (round setting.limits (some test) body) false :=
      (Settles.checkpoint hdeadline).bind ((htest.truth _).bind (.pure false))
    exact hround.bind (.pure ())

theorem refines_deadLoop (hdeadline : setting.limits.maxDuration = none) {test : Expr}
    (htest : test.flag? = some false) (body : Expr) :
    Refines setting allowance (loop (some test) body) (literal .null) := by
  obtain rfl := eq_literal_of_flag? htest
  exact .of_settles fun d =>
    (settles_repeatWhile hdeadline (Settles.literal _ _ d _) _ allowance).bind (.pure _)

/-- Folding at the root makes an expression lighter. -/
theorem refines_reduce (hdeadline : setting.limits.maxDuration = none) (e : Expr) :
    Refines setting allowance e e.reduce := by
  cases e with
  | binary left op right => exact refines_foldBinary left op right
  | unary op operand => exact refines_foldUnary op operand
  | cond test yes no => exact refines_foldCond test yes no
  | object entries => exact refines_foldObject entries
  | array items => exact refines_foldArray items
  | loop test body =>
    cases test with
    | none => exact .refl _
    | some test =>
      simp only [reduce]
      split
      · rename_i htest
        exact refines_deadLoop hdeadline htest body
      · exact .refl _
  | _ => exact .refl _

/-- Folding makes an expression lighter. -/
theorem refines_fold (hdeadline : setting.limits.maxDuration = none) (e : Expr) :
    Refines setting allowance e e.fold := by
  induction e using childrenInd with
  | node e ih =>
    rw [fold_eq]
    exact (refines_mapParts ih).trans (refines_reduce hdeadline _)

end Expr

/-- Statements whose expressions are folded are lighter. -/
theorem lighter_evalStatements_fold {setting : Setting ι σ}
    (hdeadline : setting.limits.maxDuration = none) (allowance : Nat) (last : Value)
    (script : Script) :
    Lighter (evalStatements setting allowance last script.statements)
      (evalStatements setting allowance last script.fold.statements) := by
  rw [evalStatements_eq, evalStatements_eq, Script.fold, List.map_map]
  exact (lighter_compatible setting).inTurn _ _ script.statements
    (fun s _ => Expr.refines_fold hdeadline s.expression 0 0 (Nat.le_refl 0)) last

/-- Without a deadline, a folded script ends as the script itself does, unless that is cancelled or
runs out of steps or of depth: with the same value or error, output, calls, bindings and host state,
after no more steps. -/
theorem interpret_fold {setting : Setting ι σ} (hdeadline : setting.limits.maxDuration = none)
    (allowance : Nat) (script : Script) (bindings : Table Value) (ledger : Ledger σ)
    (huncut : ¬ CutShort (interpret setting allowance script bindings ledger)) :
    ∃ steps ≤ (reached (interpret setting allowance script bindings ledger)).ledger.steps,
      interpret setting allowance script.fold bindings ledger =
        mapState (World.withSteps · steps)
          (interpret setting allowance script bindings ledger) := by
  have hlighter := lighter_evalStatements_fold hdeadline allowance .null script
  have hsame := hlighter.same ⟨globalsOf bindings, ledger⟩ ledger.steps (Nat.le_refl _)
  exact hsame.resolve_left huncut

/-- A setting without capabilities. -/
def Setting.bare (limits : Limits) : Setting Unit Unit where
  limits
  host := ⟨.empty, fun _ _ state => (⟨.ok .null, false⟩, state)⟩
  granted := .none
  clock := ""

/-- A script that folding turns into a call with a literal and a literal. -/
def foldable : Script where
  name := "foldable"
  statements := [
    ⟨.call "print" [.binary (.literal (.integer 2)) .add (.literal (.integer 3))], none⟩,
    ⟨.cond (.literal (.boolean true)) (.array [.literal .null]) none, none⟩]
  source := ""
  metadata := []

theorem interpret_foldable :
    let setting := Setting.bare { maxSteps := some 20, maxDuration := none }
    ¬ CutShort (interpret setting 22 foldable [] (.start false ())) ∧
      ∃ steps ≤ 8, interpret setting 22 foldable.fold [] (.start false ()) =
        .ok (.array [.null]) ⟨.empty, ⟨steps, false, #["5"], #[], ()⟩⟩ := by
  intro setting
  have hrun : interpret setting 22 foldable [] (.start false ()) =
      .ok (.array [.null]) ⟨.empty, ⟨8, false, #["5"], #[], ()⟩⟩ := by rfl
  have huncut : ¬ CutShort (interpret setting 22 foldable [] (.start false ())) := by
    rw [hrun]
    exact Bool.false_ne_true
  have hdeadline : setting.limits.maxDuration = none := rfl
  have hfold := interpret_fold hdeadline 22 foldable [] (.start false ()) huncut
  rw [hrun] at hfold
  exact ⟨huncut, hfold⟩

end Covenant
