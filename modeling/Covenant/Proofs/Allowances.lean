import Covenant.Proofs.Rendering

/-!
# What an allowance decides

The allowance for the depth of the descent decides nothing but whether it gives out: with a larger
one, a reader yields the same result at the same place, or the same error.

## Main definitions

* `Parser.Exhausts` : a reader runs out of an allowance.
* `Parser.Extends` : a reader yields what another one does, unless that runs out of an allowance.
* `Parser.Extended` : this for every construct of the grammar and one more of an allowance.

## Main results

* `Parser.extended` : one more of an allowance extends every construct.
* `Parser.readStatements_of_le` : an allowance that has not given out may be larger.
-/

namespace Covenant

namespace Parser

variable {α β : Type}

/-! ### Readers -/

/-- From a place, a reader runs out of an allowance. -/
def Exhausts (c : Context) (p : ParserM α) (s : Cursor) : Prop :=
  ∃ e, p c s = .error e ∧ e.fault = .recursionExhausted

theorem Exhausts.exhausted (c : Context) (s : Cursor) :
    Exhausts c (exhausted : ParserM α) s :=
  ⟨_, rfl, rfl⟩

theorem Exhausts.bind {c : Context} {p : ParserM α} {s : Cursor} (h : Exhausts c p s)
    (f : α → ParserM β) : Exhausts c (p >>= f) s := by
  obtain ⟨e, he, hfault⟩ := h
  refine ⟨e, ?_, hfault⟩
  simp only [Bind.bind, ReaderT.bind, StateT.bind, he, Except.bind]

theorem Exhausts.bind_ok {c : Context} {p : ParserM α} {f : α → ParserM β} {s s' : Cursor} {a : α}
    (hp : p c s = .ok (a, s')) (h : Exhausts c (f a) s') : Exhausts c (p >>= f) s := by
  rw [Exhausts, bind_of_run hp]
  exact h

/-- The second reader yields what the first does, unless that runs out of an allowance. -/
def Extends (p q : ParserM α) : Prop :=
  ∀ c s, q c s = p c s ∨ Exhausts c p s

namespace Extends

variable {p q r : ParserM α} {f g : α → ParserM β}

theorem refl (p : ParserM α) : Extends p p := fun _ _ => .inl rfl

theorem trans (h : Extends p q) (h' : Extends q r) : Extends p r := by
  intro c s
  rcases h c s with hq | hp
  · rcases h' c s with hr | ⟨e, he, hfault⟩
    · exact .inl (hr.trans hq)
    · exact .inr ⟨e, hq.symm.trans he, hfault⟩
  · exact .inr hp

theorem exhausted (q : ParserM α) : Extends exhausted q :=
  fun c s => .inr (.exhausted c s)

theorem bind (h : Extends p q) (hf : ∀ a, Extends (f a) (g a)) :
    Extends (p >>= f) (q >>= g) := by
  intro c s
  rcases h c s with hq | hp
  · rw [bind_run q, hq]
    cases hp : p c s with
    | ok a =>
      rw [Exhausts, bind_run p, hp]
      exact hf a.1 c a.2
    | error e =>
      rw [bind_run p, hp]
      exact .inl rfl
  · exact .inr (hp.bind f)

/-- The same reader, followed by ones that extend each other. -/
theorem andThen (p : ParserM α) (hf : ∀ a, Extends (f a) (g a)) :
    Extends (p >>= f) (p >>= g) :=
  (refl p).bind hf

theorem ite {P : Prop} [Decidable P] {p' q' : ParserM α} (h : Extends p q)
    (h' : Extends p' q') : Extends (if P then p else p') (if P then q else q') := by
  split
  · exact h
  · exact h'

/-- The same check, made or not, in front of readers that extend each other. -/
theorem guarded {P : Prop} [Decidable P] (p : ParserM α) (a : α)
    (hf : ∀ a, Extends (f a) (g a)) :
    Extends (if P then p >>= f else f a) (if P then p >>= g else g a) :=
  ite (andThen p hf) (hf a)

theorem deeper (h : Extends p q) (levels : Nat) : Extends (deeper levels p) (deeper levels q) :=
  fun _ s => h _ s

theorem grouping (h : Extends p q) (grouped : Bool) :
    Extends (grouping grouped p) (grouping grouped q) :=
  fun _ s => h _ s

theorem insideLoop (h : Extends p q) : Extends (insideLoop p) (insideLoop q) :=
  fun _ s => h _ s

theorem rounds {round round' : α → ParserM (α ⊕ β)} (h : ∀ a, Extends (round a) (round' a))
    (n : Nat) (a : α) : Extends (rounds round n a) (rounds round' n a) := by
  induction n generalizing a with
  | zero => exact .exhausted _
  | succ n ih =>
    refine (h a).bind fun r => ?_
    cases r with
    | inl a => exact ih a
    | inr b => exact .refl _

theorem repeatRounds {round round' : α → ParserM (α ⊕ β)} (h : ∀ a, Extends (round a) (round' a))
    (a : α) : Extends (repeatRounds a round) (repeatRounds a round') :=
  .andThen _ fun c => .rounds h c.rounds a

end Extends

/-! ### Constructs -/

/-- One more of an allowance extends every construct of the grammar. -/
structure Extended (n : Nat) : Prop where
  blockItem : Extends (blockItem n) (blockItem (n + 1))
  expression : Extends (expression n) (expression (n + 1))
  assignment : Extends (assignment n) (assignment (n + 1))
  binary (level : Nat) : Extends (binary n level) (binary (n + 1) level)
  unary : Extends (unary n) (unary (n + 1))
  postfixed : Extends (postfixed n) (postfixed (n + 1))
  primary : Extends (primary n) (primary (n + 1))
  delimited (close : Symbol) (what : Expected) :
    Extends (delimited n close what) (delimited (n + 1) close what)
  object : Extends (object n) (object (n + 1))
  block : Extends (block n) (block (n + 1))
  condition : Extends (condition n) (condition (n + 1))
  conditional : Extends (conditional n) (conditional (n + 1))
  loopBody : Extends (loopBody n) (loopBody (n + 1))

namespace Extended

variable {n : Nat}

theorem zero : Extended 0 where
  blockItem := .exhausted _
  expression := .exhausted _
  assignment := .exhausted _
  binary _ := .exhausted _
  unary := .exhausted _
  postfixed := .exhausted _
  primary := .exhausted _
  delimited _ _ := .exhausted _
  object := .exhausted _
  block := .exhausted _
  condition := .exhausted _
  conditional := .exhausted _
  loopBody := .exhausted _

theorem blockItem_succ (h : Extended n) :
    Extends (Parser.blockItem (n + 1)) (Parser.blockItem (n + 2)) := by
  refine .andThen _ fun token => ?_
  split
  · refine .andThen _ fun _ => .andThen _ fun nameToken => ?_
    split
    · exact .andThen _ fun _ => h.expression.bind fun _ => .refl _
    · exact .refl _
  · exact .refl _
  · exact .refl _
  · exact h.expression

theorem expression_succ (h : Extended n) :
    Extends (Parser.expression (n + 1)) (Parser.expression (n + 2)) :=
  .andThen _ fun _ => h.assignment.deeper 1

theorem assignment_succ (h : Extended n) :
    Extends (Parser.assignment (n + 1)) (Parser.assignment (n + 2)) := by
  refine .andThen _ fun start => (h.binary 0).bind fun target => .andThen _ fun assigns => ?_
  refine .ite ?_ (.refl _)
  cases target with
  | ref name => exact .andThen _ fun _ => (h.assignment.deeper 1).bind fun _ => .refl _
  | _ => exact .refl _

theorem binary_succ (h : Extended n) (level : Nat) :
    Extends (Parser.binary (n + 1) level) (Parser.binary (n + 2) level) := by
  refine .ite h.unary ((h.binary (level + 1)).bind fun first => .repeatRounds ?_ _)
  rintro ⟨chained, left⟩
  refine .andThen _ fun continues => .ite (.refl _) (.andThen _ fun token => ?_)
  split
  · refine .ite (.andThen _ fun _ => .andThen _ fun _ => ?_) (.refl _)
    exact ((h.binary (level + 1)).deeper (chained + 1)).bind fun _ => .refl _
  · exact .refl _

theorem unary_succ (h : Extended n) :
    Extends (Parser.unary (n + 1)) (Parser.unary (n + 2)) := by
  refine .andThen _ fun token => ?_
  split
  · exact .andThen _ fun _ => .andThen _ fun _ => (h.unary.deeper 1).bind fun _ => .refl _
  · exact h.postfixed

theorem postfixed_succ (h : Extended n) :
    Extends (Parser.postfixed (n + 1)) (Parser.postfixed (n + 2)) := by
  refine h.primary.bind fun first => .repeatRounds ?_ _
  rintro ⟨chained, e⟩
  refine .andThen _ fun token => ?_
  refine .guarded _ () fun _ => ?_
  split
  · exact .refl _
  · refine .andThen _ fun continues => .ite (.andThen _ fun _ => ?_) (.refl _)
    split
    · exact ((h.delimited _ _).deeper _).bind fun _ => .refl _
    · exact .refl _
  · refine .andThen _ fun continues => .ite (.andThen _ fun _ => ?_) (.refl _)
    exact ((h.expression.grouping true).deeper _).bind fun _ => .refl _
  · exact .refl _

theorem primary_succ (h : Extended n) :
    Extends (Parser.primary (n + 1)) (Parser.primary (n + 2)) := by
  refine .andThen _ fun token => ?_
  obtain ⟨kind, first, last, newline⟩ := token
  cases kind with
  | keyword word =>
    cases word with
    | if_ => exact h.conditional
    | while_ =>
      exact .andThen _ fun _ => h.condition.bind fun _ => h.loopBody.bind fun _ => .refl _
    | loop => exact .andThen _ fun _ => h.loopBody.bind fun _ => .refl _
    | _ => exact .refl _
  | symbol symbol =>
    cases symbol with
    | openParen => exact .andThen _ fun _ => (h.expression.grouping true).bind fun _ => .refl _
    | openBracket => exact .andThen _ fun _ => (h.delimited _ _).bind fun _ => .refl _
    | openBrace => exact .andThen _ fun isObject => .ite h.object h.block
    | _ => exact .refl _
  | _ => exact .refl _

theorem delimited_succ (h : Extended n) (close : Symbol) (what : Expected) :
    Extends (Parser.delimited (n + 1) close what) (Parser.delimited (n + 2) close what) := by
  refine .grouping (.repeatRounds (fun items => .andThen _ fun closes => ?_) _) true
  exact .ite (.refl _) (h.expression.bind fun _ => .refl _)

theorem object_succ (h : Extended n) :
    Extends (Parser.object (n + 1)) (Parser.object (n + 2)) := by
  refine .andThen _ fun _ => .grouping (.repeatRounds (fun entries => ?_) _) true
  refine .andThen _ fun closes => .ite (.refl _) (.andThen _ fun keyToken => ?_)
  split
  · refine .andThen _ fun _ => .andThen _ fun _ => h.expression.bind fun _ => .refl _
  · refine .andThen _ fun _ => .andThen _ fun _ => h.expression.bind fun _ => .refl _
  · refine .andThen _ fun _ => .andThen _ fun _ => h.expression.bind fun _ => .refl _

theorem block_succ (h : Extended n) :
    Extends (Parser.block (n + 1)) (Parser.block (n + 2)) := by
  refine .andThen _ fun _ => .grouping (.repeatRounds (fun items => ?_) _) false
  refine .andThen _ fun _ => .ite (.refl _) (.andThen _ fun _ => .ite (.refl _) ?_)
  refine .andThen _ fun _ => .ite (.refl _) (h.blockItem.bind fun _ => .refl _)

theorem condition_succ (h : Extended n) :
    Extends (Parser.condition (n + 1)) (Parser.condition (n + 2)) :=
  (h.expression.grouping false).bind fun _ => .refl _

theorem conditional_succ (h : Extended n) :
    Extends (Parser.conditional (n + 1)) (Parser.conditional (n + 2)) := by
  refine .andThen _ fun _ => h.condition.bind fun _ => h.block.bind fun _ => ?_
  refine .andThen _ fun _ => .ite (.andThen _ fun _ => .andThen _ fun _ => ?_) (.refl _)
  refine .ite (h.conditional.bind fun _ => .refl _) (.andThen _ fun _ => ?_)
  exact .ite (h.block.bind fun _ => .refl _) (.refl _)

theorem loopBody_succ (h : Extended n) :
    Extends (Parser.loopBody (n + 1)) (Parser.loopBody (n + 2)) :=
  .andThen _ fun _ => .ite h.block.insideLoop (.refl _)

end Extended

/-- One more of an allowance extends every construct. -/
theorem extended (n : Nat) : Extended n := by
  induction n with
  | zero => exact .zero
  | succ n ih =>
    exact {
      blockItem := ih.blockItem_succ
      expression := ih.expression_succ
      assignment := ih.assignment_succ
      binary := ih.binary_succ
      unary := ih.unary_succ
      postfixed := ih.postfixed_succ
      primary := ih.primary_succ
      delimited := ih.delimited_succ
      object := ih.object_succ
      block := ih.block_succ
      condition := ih.condition_succ
      conditional := ih.conditional_succ
      loopBody := ih.loopBody_succ }

/-- What is extended by one more of an allowance is extended by any larger one. -/
theorem Extends.of_le {f : Nat → ParserM α} (h : ∀ n, Extends (f n) (f (n + 1))) {n m : Nat}
    (hle : n ≤ m) : Extends (f n) (f m) := by
  induction m, hle using Nat.le_induction with
  | base => exact .refl _
  | succ m _ ih => exact ih.trans (h m)

/-- What is read with a large allowance is read with every one that does not give out. -/
theorem ReadsBy.run_or_exhausts {least : Nat} {c : Context} {f : Nat → ParserM α} {a : α}
    {ts ts' : List Token} (h : ReadsBy least True c f ts a ts')
    (hf : ∀ n, Extends (f n) (f (n + 1))) (n : Nat) {s : Cursor} (hs : s.tokens = ts) :
    (∃ s' : Cursor, s'.tokens = ts' ∧ f n c s = .ok (a, s')) ∨ Exhausts c (f n) s := by
  obtain ⟨s', hs', hrun⟩ := (h (n + least)).run ⟨Nat.le_add_left _ _, trivial⟩ hs
  rcases Extends.of_le hf (Nat.le_add_right n least) c s with heq | hexhausts
  · exact .inl ⟨s', hs', heq.symm.trans hrun⟩
  · exact .inr hexhausts

/-! ### Texts -/

theorem Extended.statements {n : Nat} (h : Extended n) :
    Extends (statements n) (statements (n + 1)) := by
  refine .repeatRounds (fun read => .andThen _ fun _ => .ite (.refl _) ?_) _
  refine .andThen _ fun _ => .ite (.refl _) (Extends.bind ?_ fun _ => .refl _)
  exact .andThen _ fun start => h.blockItem.bind fun _ => .refl _

/-- An allowance that has not given out may be larger. -/
theorem readStatements_of_le {n m : Nat} (hle : n ≤ m) (file : String) (tokens : List Token)
    (h : ∀ e, readStatements n file tokens = .error e → e.fault ≠ .recursionExhausted) :
    readStatements m file tokens = readStatements n file tokens := by
  rcases tokens with _ | ⟨first, ahead⟩
  · rfl
  let c : Context := ⟨file, 0, false, false, ahead.length + 2⟩
  rcases Extends.of_le (fun n => (extended n).statements) hle c ⟨first, ahead, .start⟩ with
    heq | ⟨e, he, hfault⟩
  · rw [readStatements_cons, readStatements_cons, heq]
  · refine absurd hfault (h e ?_)
    rw [readStatements_cons, he]
    rfl

end Parser

end Covenant
