import Covenant.Proofs.Ledger

/-!
# The order of evaluation

An expression evaluates its parts in the order in which they are listed, each of them at most once.
Only a repetition evaluates its parts again, in the same order in every round.

Evaluations are observed by taking notes. Room for the notes is beside the state of the host, where
no operation of a run reaches them (`noting_host`), and the evaluation of a part adds the part to
them (`Eval.noted`). Apart from its notes an evaluation with notes does what the evaluation does.

## Main definitions

* `Setting.noting`, `World.noting` : a run with room for notes.
* `evalNoting` : the evaluation of an expression that also notes its parts.
* `Notes` : an evaluation with notes does the same and notes expressions in their order.
* `Expr.turns` : the parts of an expression as often as they may be evaluated.

## Main results

* `evalNode_notes` : constructs evaluate their parts in order.
* `eval_notes` : so do expressions.
-/

namespace Covenant

open Eval

variable {ι σ α β γ : Type}

/-! ### Runs with room for notes -/

/-- The host with room for notes beside its state. -/
def Host.noting (host : Host ι σ) : Host ι (σ × List Expr) where
  registry := host.registry
  perform implementation args state :=
    ((host.perform implementation args state.1).1,
      (host.perform implementation args state.1).2, state.2)

/-- The setting with a host that has room for notes. -/
def Setting.noting (setting : Setting ι σ) : Setting ι (σ × List Expr) where
  limits := setting.limits
  host := setting.host.noting
  granted := setting.granted
  clock := setting.clock

/-- The world with notes. -/
def World.noting (notes : List Expr) (w : World σ) : World (σ × List Expr) :=
  w.mapLedger (Ledger.mapHost (·, notes))

/-- The world without its notes. -/
def World.unnoted (w : World (σ × List Expr)) : World σ :=
  w.mapLedger (Ledger.mapHost Prod.fst)

/-- No operation of a run reaches the notes. -/
theorem noting_host (setting : Setting ι σ) (notes : List Expr) :
    HostMap setting setting.noting (·, notes) :=
  ⟨rfl, rfl, rfl, rfl, fun _ _ _ => rfl⟩

/-- The evaluation of a part that also notes the part. -/
def Eval.noted (part : Expr → Eval σ Value) (e : Expr) : Eval (σ × List Expr) Value :=
  fun w => mapState (World.noting (w.ledger.host.2 ++ [e])) (part e w.unnoted)

/-- The evaluation of an expression that also notes its parts as it comes to them. -/
def evalNoting (setting : Setting ι σ) (allowance depth : Nat) (e : Expr) :
    Eval (σ × List Expr) Value := do
  enter setting.noting (depth + 1)
  evalNode setting.noting allowance (noted (eval setting allowance (depth + 1))) e

/-! ### Evaluations that take notes in order -/

/-- The second evaluation does what the first one does, and it notes some of the expressions, in the
order of the list. -/
def Notes (es : List Expr) (x : Eval σ α) (x' : Eval (σ × List Expr) α) : Prop :=
  ∀ w notes, ∃ taken : List Expr, taken.Sublist es ∧
    x' (w.noting notes) = mapState (World.noting (notes ++ taken)) (x w)

namespace Notes

variable {es fs : List Expr}

theorem mono {x : Eval σ α} {x' : Eval (σ × List Expr) α} (h : Notes es x x')
    (hsub : es.Sublist fs) : Notes fs x x' := by
  intro w notes
  obtain ⟨taken, htaken, heq⟩ := h w notes
  exact ⟨taken, htaken.trans hsub, heq⟩

/-- What does not look at the notes takes none. -/
theorem of_follows {x : Eval σ α} {x' : Eval (σ × List Expr) α}
    (h : ∀ notes, Follows (World.noting notes) x x') : Notes es x x' := by
  intro w notes
  refine ⟨[], List.nil_sublist es, ?_⟩
  rw [List.append_nil]
  exact h notes w

theorem bind {x : Eval σ α} {x' : Eval (σ × List Expr) α} {f : α → Eval σ β}
    {f' : α → Eval (σ × List Expr) β} (hx : Notes es x x') (hf : ∀ a, Notes fs (f a) (f' a)) :
    Notes (es ++ fs) (x >>= f) (x' >>= f') := by
  intro w notes
  obtain ⟨taken, htaken, heq⟩ := hx w notes
  cases hr : x w with
  | ok a w₁ =>
    rw [hr] at heq
    obtain ⟨later, hlater, heq'⟩ := hf a w₁ (notes ++ taken)
    refine ⟨taken ++ later, htaken.append hlater, ?_⟩
    rw [bind_of_ok hr, bind_of_ok heq, heq', List.append_assoc]
  | error e w₁ =>
    rw [hr] at heq
    refine ⟨taken, htaken.trans (List.sublist_append_left es fs), ?_⟩
    rw [bind_of_error hr, bind_of_error heq]
    rfl

/-- What comes after takes no notes. -/
theorem andThen {x : Eval σ α} {x' : Eval (σ × List Expr) α} {f : α → Eval σ β}
    {f' : α → Eval (σ × List Expr) β} (hx : Notes es x x') (hf : ∀ a, Notes [] (f a) (f' a)) :
    Notes es (x >>= f) (x' >>= f') := by
  have h := hx.bind hf
  rwa [List.append_nil] at h

theorem pure (a : α) : Notes es (pure a : Eval σ α) (pure a) :=
  of_follows fun _ => .pure a

theorem ofExcept (result : Except Error α) :
    Notes es (ofExcept result : Eval σ α) (ofExcept result) :=
  of_follows fun _ => ofExcept_follows _ result

theorem noted (part : Expr → Eval σ Value) (e : Expr) : Notes [e] (part e) (noted part e) :=
  fun _ _ => ⟨[e], List.Sublist.refl _, rfl⟩

theorem truth (context : String) {x : Eval σ Value} {x' : Eval (σ × List Expr) Value}
    (hx : Notes es x x') : Notes es (truth context x) (truth context x') :=
  hx.andThen fun _ => .ofExcept _

theorem framed {x : Eval σ α} {x' : Eval (σ × List Expr) α} (hx : Notes es x x') :
    Notes es (framed x) (framed x') := by
  intro w notes
  obtain ⟨taken, htaken, heq⟩ := hx ⟨w.scopes.push, w.ledger⟩ notes
  refine ⟨taken, htaken, ?_⟩
  have hinside : x' ⟨w.scopes.push, w.ledger.mapHost (·, notes)⟩ = _ := heq
  simp only [Eval.framed, World.noting, World.mapLedger, hinside]
  cases x ⟨w.scopes.push, w.ledger⟩ <;> rfl

theorem loopBody {x : Eval σ α} {x' : Eval (σ × List Expr) α} (hx : Notes es x x') :
    Notes es (loopBody x) (loopBody x') := by
  intro w notes
  obtain ⟨taken, htaken, heq⟩ := hx w notes
  exact ⟨taken, htaken, by rw [loopBody_eq, loopBody_eq, heq, takeJump_mapState]⟩

/-- A repetition takes its notes round after round. -/
theorem repeatWhile {x : Eval σ Bool} {x' : Eval (σ × List Expr) Bool} (hx : Notes es x x')
    (n : Nat) :
    Notes (List.replicate n es).flatten (repeatWhile x n) (repeatWhile x' n) := by
  induction n with
  | zero => exact of_follows fun _ _ => rfl
  | succ n ih =>
    rw [List.replicate_succ, List.flatten_cons]
    refine hx.bind fun goesOn => ?_
    cases goesOn with
    | true => exact ih
    | false => exact .pure ()

variable (part : Expr → Eval σ Value)

theorem collect (cs : List Expr) (done : List Value) :
    Notes cs (collect done (cs.map part)) (collect done (cs.map (Eval.noted part))) := by
  induction cs generalizing done with
  | nil => exact .pure _
  | cons c rest ih => exact (noted part c).bind fun value => ih (value :: done)

theorem inTurn (cs : List Expr) (last : Value) :
    Notes cs (inTurn last (cs.map part)) (inTurn last (cs.map (Eval.noted part))) := by
  induction cs generalizing last with
  | nil => exact .pure _
  | cons c rest ih => exact (noted part c).bind fun value => ih value

theorem gather (entries : List (String × Expr)) (done : Table Value) :
    Notes (entries.map Prod.snd)
      (gather done (entries.map fun entry => (entry.1, part entry.2)))
      (gather done (entries.map fun entry => (entry.1, Eval.noted part entry.2))) := by
  induction entries generalizing done with
  | nil => exact .pure _
  | cons entry rest ih =>
    exact (noted part entry.2).bind fun value => ih (done.insert entry.1 value)

end Notes

/-! ### Constructs and expressions -/

/-- The parts of an expression in order, as often as they may be evaluated: once, but in each of so
many rounds of a repetition. -/
def Expr.turns (allowance : Nat) : Expr → List Expr
  | loop test body => (List.replicate allowance (loop test body).children).flatten
  | e => e.children

section Constructs

variable (setting : Setting ι σ) (part : Expr → Eval σ Value)

theorem noting_compatible (notes : List Expr) :
    Compatible setting setting.noting fun _ => Follows (World.noting notes) :=
  (noting_host setting notes).ledgerMap.compatible

theorem checkpoint_notes :
    Notes [] (ofRun (Run.checkpoint setting.limits) : Eval σ Unit)
      (ofRun (Run.checkpoint setting.noting.limits)) :=
  .of_follows fun notes => (noting_compatible setting notes).checkpoint

theorem inScope_notes {es : List Expr} {x : Eval σ Value} {x' : Eval (σ × List Expr) Value}
    (hx : Notes es x x') :
    Notes es (inScope setting.limits x) (inScope setting.noting.limits x') := by
  rw [inScope_eq, inScope_eq]
  have hscope : Notes [] (checkScope setting.limits) (checkScope setting.noting.limits) :=
    .of_follows fun notes => (noting_compatible setting notes).checkScope
  exact (checkpoint_notes setting).bind fun _ => (hscope.bind fun _ => hx).framed

/-- A round evaluates the test, if there is one, and then the body. -/
theorem round_notes (test : Option Expr) (body : Expr) :
    Notes (Expr.loop test body).children
      (round setting.limits (test.map part) (part body))
      (round setting.noting.limits (test.map (noted part)) (noted part body)) := by
  have hgoesOn : Notes test.toList (goesOn (test.map part)) (goesOn (test.map (noted part))) := by
    cases test with
    | none => exact .pure _
    | some test => exact (Notes.noted part test).truth _
  refine (checkpoint_notes setting).bind fun _ => hgoesOn.bind fun flag => ?_
  cases flag with
  | true => exact (Notes.noted part body).loopBody
  | false => exact .pure _

/-- A choice evaluates the test and then at most one of the branches. -/
theorem choice_notes (test yes : Expr) (no : Option Expr) :
    Notes (Expr.cond test yes no).children
      (choice (part test) (part yes) (no.map part))
      (choice (noted part test) (noted part yes) (no.map (noted part))) := by
  refine ((Notes.noted part test).truth _).bind fun flag => ?_
  cases flag with
  | true => exact (Notes.noted part yes).mono (by simp)
  | false =>
    cases no with
    | none => exact .pure _
    | some no => exact (Notes.noted part no).mono (by simp)

/-- A logical operation evaluates the left operand and then at most the right one. -/
theorem logical_notes (op : BinaryOp) (left right : Expr) :
    Notes [left, right] (logical op (part left) (part right))
      (logical op (noted part left) (noted part right)) := by
  refine ((Notes.noted part left).truth _).bind fun flag => ?_
  cases op.decides flag with
  | true => exact .pure _
  | false => exact ((Notes.noted part right).truth _).andThen fun _ => .pure _

/-- A construct evaluates its parts in order. -/
theorem evalNode_notes (allowance : Nat) (e : Expr) :
    Notes (e.turns allowance) (evalNode setting allowance part e)
      (evalNode setting.noting allowance (noted part) e) := by
  have hnoted := Notes.noted part
  cases e with
  | literal value => exact .pure value
  | ref name => exact .of_follows fun notes => (noting_compatible setting notes).readName name
  | binary left op right =>
    simp only [evalNode]
    split
    · exact logical_notes part op left right
    · exact (hnoted left).bind fun _ => (hnoted right).andThen fun _ => .ofExcept _
  | unary op operand => exact (hnoted operand).andThen fun _ => .ofExcept _
  | call name args =>
    refine (Notes.collect part args []).andThen fun values => ?_
    exact .of_follows fun notes => (noting_compatible setting notes).call name values
  | block items => exact inScope_notes setting (.inTurn part items .null)
  | cond test yes no => exact choice_notes part test yes no
  | loop test body =>
    exact ((round_notes setting part test body).repeatWhile allowance).andThen fun _ => .pure _
  | assign target value =>
    refine (hnoted value).andThen fun a => .of_follows fun notes => ?_
    exact ((noting_compatible setting notes).assign target a).bind fun _ => .pure a
  | declare name value =>
    refine (hnoted value).andThen fun a => .of_follows fun notes => ?_
    exact ((noting_compatible setting notes).define name a).bind fun _ => .pure a
  | object entries => exact (Notes.gather part entries []).andThen fun _ => .pure _
  | array items => exact (Notes.collect part items []).andThen fun _ => .pure _
  | property target name => exact (hnoted target).andThen fun _ => .ofExcept _
  | index target position =>
    exact (hnoted target).bind fun _ => (hnoted position).andThen fun _ => .ofExcept _
  | jump j => exact .of_follows fun _ => .throw _

/-- **Parts are evaluated in the order in which they are listed.** -/
theorem eval_notes (allowance depth : Nat) (e : Expr) :
    Notes (e.turns allowance) (eval setting allowance depth e)
      (evalNoting setting allowance depth e) := by
  rw [eval_eq]
  have henter : Notes [] (enter setting (depth + 1)) (enter setting.noting (depth + 1)) :=
    .of_follows fun notes => .bind
      (ofRun_follows _ (noting_host setting notes).ledgerMap.charge) fun _ =>
      ofRun_follows _ ((noting_host setting notes).ledgerMap.checkExpressionDepth (depth + 1))
  exact henter.bind fun _ => evalNode_notes setting _ allowance e

end Constructs

end Covenant
