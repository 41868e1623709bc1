import Covenant.Proofs.AlignedGrammar
import Covenant.Proofs.Allowances

/-!
# How deep the reader descends

The reader calls itself for every construct that it opens, and counts these constructs up to a
limit. One construct is not counted: the choice behind an `else`. So a bound on the depth of the
descent has to know how many choices a text chains in this way, and without that there is none.

A reader is followed from the place where it starts to what holds of its result and of the place
reached (`Passes`). Each round of a repetition passes a token, and each construct that is counted
takes one of the levels that are left, so neither allowance gives out.

## Main definitions

* `Parser.Passes` : a reader does not run out of an allowance, and its results are as described.
* `Parser.ElseIfs` : the number of choices chained behind a choice.
* `Parser.Descends` : an allowance that suffices for the grammar.
* `Parser.descentBound` : an allowance for texts without longer chains.

## Main results

* `Parser.Limited.descends` : every construct is read with what it needs of an allowance.
* `Parser.readStatements_descentBound` : an allowance that depends on nothing but the limit and the
  length of chains.
* `Parser.no_allowance_suffices` : chains without a limit exceed every allowance.
-/

namespace Covenant

namespace Parser

variable {α β : Type}

/-! ### Places -/

/-- The second cursor is at least so many tokens behind the first. -/
def Cursor.Behind (k : Nat) (s s' : Cursor) : Prop :=
  s'.tokens <:+ s.tokens ∧ s'.tokens.length + k ≤ s.tokens.length

namespace Cursor.Behind

variable {k k' : Nat} {s s' s'' : Cursor}

theorem refl (s : Cursor) : s.Behind 0 s := ⟨List.suffix_refl _, Nat.le_refl _⟩

theorem mono (h : s.Behind k s') (hk : k' ≤ k) : s.Behind k' s' :=
  ⟨h.1, Nat.le_trans (Nat.add_le_add_left hk _) h.2⟩

theorem trans (h : s.Behind k s') (h' : s'.Behind k' s'') : s.Behind (k + k') s'' := by
  refine ⟨h'.1.trans h.1, ?_⟩
  have hle := h.2
  have hle' := h'.2
  omega

end Cursor.Behind

theorem Cursor.next_behind (s : Cursor) : s.Behind 0 s.next := by
  obtain ⟨t, _ | ⟨u, us⟩, p⟩ := s
  · exact .refl _
  · exact ⟨List.suffix_cons _ _, Nat.le_succ _⟩

/-- The end of the text comes last. -/
def Ends (tokens : List Token) : Prop :=
  ∃ before finish, tokens = before ++ [finish] ∧ finish.kind = .finish

/-- Only the last token is not passed. -/
theorem Cursor.next_behind_of_ne {tokens : List Token} (hends : Ends tokens) {s : Cursor}
    (hs : s.tokens <:+ tokens) (hkind : s.current.kind ≠ .finish) : s.Behind 1 s.next := by
  obtain ⟨t, _ | ⟨u, us⟩, p⟩ := s
  · -- nothing is ahead, so this is the end of the text
    obtain ⟨before, finish, rfl, hfinish⟩ := hends
    obtain ⟨passed, hpassed⟩ := hs
    obtain ⟨-, hlast⟩ := List.append_inj' hpassed rfl
    obtain rfl : t = finish := List.singleton_inj.mp hlast
    exact absurd hfinish hkind
  · exact ⟨List.suffix_cons _ _, Nat.le_refl _⟩

/-! ### Readers -/

/-- From a place, a reader fails for another reason than an allowance, or its result and the place
reached are as described. -/
def Passes (c : Context) (p : ParserM α) (s : Cursor) (Q : α → Cursor → Prop) : Prop :=
  match p c s with
  | .ok (a, s') => Q a s'
  | .error e => e.fault ≠ .recursionExhausted

namespace Passes

variable {c : Context} {p : ParserM α} {s : Cursor} {Q Q' : α → Cursor → Prop}
  {R : β → Cursor → Prop}

theorem mono (h : Passes c p s Q) (hQ : ∀ a s', Q a s' → Q' a s') : Passes c p s Q' := by
  unfold Passes at h ⊢
  split at h
  · exact hQ _ _ h
  · exact h

theorem pure {a : α} (h : Q a s) : Passes c (pure a) s Q := h

theorem bind {f : α → ParserM β} (h : Passes c p s fun a s' => Passes c (f a) s' R) :
    Passes c (p >>= f) s R := by
  rw [Passes] at h ⊢
  rw [bind_run]
  cases hp : p c s with
  | ok r =>
    rw [hp] at h
    exact h
  | error e =>
    rw [hp] at h
    exact h

/-- What a reader yields is known where it has been run. -/
theorem and_run (h : Passes c p s Q) :
    Passes c p s fun a s' => Q a s' ∧ p c s = .ok (a, s') := by
  unfold Passes at h ⊢
  split at h
  · exact ⟨h, ‹_›⟩
  · exact h

theorem failAt (token : Token) {fault : SyntaxFault} (h : fault ≠ .recursionExhausted) :
    Passes c (failAt token fault) s Q := h

theorem unexpected (what : Expected) : Passes c (unexpected what) s Q :=
  fun h => nomatch h

theorem read {f : Context → ParserM β} (h : Passes c (f c) s R) : Passes c (read >>= f) s R := h

theorem current {f : Token → ParserM β} (h : Passes c (f s.current) s R) :
    Passes c (current >>= f) s R := h

theorem advance {f : Token → ParserM β} (h : Passes c (f s.current) s.next R) :
    Passes c (advance >>= f) s R := by
  rw [Passes, bind_of_run (advance_run c s)]
  exact h

theorem atSymbol {symbol : Symbol} {f : Bool → ParserM β}
    (h : Passes c (f (decide (s.current.kind = .symbol symbol))) s R) :
    Passes c (atSymbol symbol >>= f) s R := h

theorem atKeyword {keyword : Keyword} {f : Bool → ParserM β}
    (h : Passes c (f (decide (s.current.kind = .keyword keyword))) s R) :
    Passes c (atKeyword keyword >>= f) s R := h

theorem atFinish {f : Bool → ParserM β}
    (h : Passes c (f (decide (s.current.kind = .finish))) s R) :
    Passes c (atFinish >>= f) s R := h

theorem eat {symbol : Symbol} {f : Bool → ParserM β}
    (hpass : s.current.kind = .symbol symbol → Passes c (f true) s.next R)
    (hstay : Passes c (f false) s R) : Passes c (eat symbol >>= f) s R := by
  refine bind ?_
  rw [Passes, eat_run]
  by_cases h : s.current.kind = .symbol symbol
  · rw [if_pos h]
    exact hpass h
  · rw [if_neg h]
    exact hstay

theorem expect {symbol : Symbol} {what : Expected} {f : Unit → ParserM β}
    (h : s.current.kind = .symbol symbol → Passes c (f ()) s.next R) :
    Passes c (expect symbol what >>= f) s R :=
  bind (eat h (unexpected what))

theorem continuesLine {f : Bool → ParserM β}
    (h : Passes c (f (!s.current.newlineBefore || c.grouped)) s R) :
    Passes c (continuesLine >>= f) s R := h

/-- A check that is passed leaves a level. -/
theorem checkNesting {more : Nat} {f : Unit → ParserM β}
    (h : c.nesting + more < maxNesting → Passes c (f ()) s R) :
    Passes c (checkNesting more >>= f) s R := by
  refine bind (read ?_)
  split
  · exact current (failAt _ (by simp))
  · exact h (Nat.not_le.mp ‹_›)

theorem checkNestingWhen {b : Bool} {more : Nat} {f : Unit → ParserM β}
    (h : (b = true → c.nesting + more < maxNesting) → Passes c (f ()) s R) :
    Passes c (if b = true then Parser.checkNesting more >>= f else f ()) s R := by
  split
  · exact checkNesting fun hnesting => h fun _ => hnesting
  · exact h fun hb => absurd hb ‹_›

theorem objectAhead {f : Bool → ParserM β} (h : ∀ isObject, Passes c (f isObject) s R) :
    Passes c (objectAhead >>= f) s R := by
  refine bind ?_
  rw [Passes, AlignedGrammar.objectAhead_run]
  exact h _

theorem statementEnd : Passes c statementEnd s fun _ s' => s.Behind 0 s' := by
  refine eat (fun _ => pure s.next_behind) (atFinish ?_)
  split
  · exact pure (.refl s)
  refine atSymbol ?_
  split
  · exact pure (.refl s)
  refine current ?_
  split
  · exact pure (.refl s)
  · exact unexpected _

/-- The rounds last if each of them passes a token. -/
theorem rounds {round : α → ParserM (α ⊕ β)} {n : Nat} {a : α} (hn : s.tokens.length ≤ n)
    (hround : ∀ a s₁, s.Behind 0 s₁ → Passes c (round a) s₁ fun r s₂ =>
      s₁.Behind (r.elim (fun _ => 1) fun _ => 0) s₂) :
    Passes c (rounds round n a) s fun _ s' => s.Behind 0 s' := by
  induction n generalizing a s with
  | zero => exact absurd hn (Nat.not_succ_le_zero _) -- there always is a current token
  | succ n ih =>
    refine bind ((hround a s (.refl s)).mono fun r s₁ hs₁ => ?_)
    cases r with
    | inl a' =>
      have hlength := hs₁.2
      refine (ih (s := s₁) (by simp at hlength; omega) fun a s₂ hs₂ => ?_).mono fun _ s' hs' => ?_
      · exact hround a s₂ ((hs₁.mono (Nat.zero_le _)).trans hs₂)
      · exact (hs₁.trans hs').mono (Nat.zero_le _)
    | inr b => exact pure hs₁

theorem repeatRounds {round : α → ParserM (α ⊕ β)} {a : α} (hn : s.tokens.length ≤ c.rounds)
    (hround : ∀ a s₁, s.Behind 0 s₁ → Passes c (round a) s₁ fun r s₂ =>
      s₁.Behind (r.elim (fun _ => 1) fun _ => 0) s₂) :
    Passes c (repeatRounds a round) s fun _ s' => s.Behind 0 s' :=
  read (rounds hn hround)

end Passes

/-! ### Chains of choices -/

/-- The test and the first branch of a choice. -/
def branch (n : Nat) : ParserM (Expr × Expr) := do
  let _ ← advance
  let test ← condition n
  let yes ← block n
  return (test, yes)

/-- The choice at a place goes on with so many others, each behind the `else` of the one before. -/
inductive ElseIfs (c : Context) : Cursor → Nat → Prop
  | none {s} : ElseIfs c s 0
  | more {s s' n parts k} : branch n c s = .ok (parts, s') → s'.tokens <:+ s.tokens →
    s'.current.kind = .keyword .else_ → s'.next.current.kind = .keyword .if_ →
    ElseIfs c s'.next k → ElseIfs c s (k + 1)

/-- Tokens up to the end of a text, no choice among which goes on with more than `most` others. -/
structure Limited (tokens : List Token) (most : Nat) : Prop where
  ends : Ends tokens
  chains (c : Context) (s : Cursor) (k : Nat) : s.tokens <:+ tokens → ElseIfs c s k → k ≤ most

/-! ### Allowances -/

/-- What each of the levels that are left needs of an allowance, all together. -/
def Context.reserve (c : Context) (most : Nat) : Nat :=
  (maxNesting - c.nesting) * (most + 15)

/-- One more open construct takes a level. -/
theorem Context.reserve_deeper {c c' : Context} (most : Nat) (h : c.nesting < c'.nesting)
    (hnesting : c.nesting < maxNesting) :
    c'.reserve most + (most + 15) ≤ c.reserve most := by
  rw [reserve, reserve, ← Nat.succ_mul]
  exact Nat.mul_le_mul_right _ (by omega)

/-- At a place in the tokens, an allowance suffices for the levels that are left and for more. -/
structure Suffices (tokens : List Token) (most cost : Nat) (c : Context) (s : Cursor) (n : Nat) :
    Prop where
  within : s.tokens <:+ tokens
  rounds : tokens.length ≤ c.rounds
  allowance : c.reserve most + cost ≤ n

namespace Suffices

variable {tokens : List Token} {most cost cost' n k : Nat} {c c' : Context} {s s' : Cursor}

theorem behind (h : Suffices tokens most cost c s n) (hs : s.Behind k s') :
    Suffices tokens most cost c s' n :=
  ⟨hs.1.trans h.within, h.rounds, h.allowance⟩

/-- What a construct that calls another one leaves for it. -/
theorem call (h : Suffices tokens most cost c s (n + 1)) (hcost : cost' < cost) :
    Suffices tokens most cost' c s n :=
  ⟨h.within, h.rounds, by have := h.allowance; omega⟩

/-- What it leaves for one that opens a level. -/
theorem deeper (h : Suffices tokens most cost c s (n + 1)) (hcost : 0 < cost)
    (hcost' : cost' ≤ most + 15) (hrounds : c'.rounds = c.rounds)
    (hnesting : c.nesting < c'.nesting) (hleft : c.nesting < maxNesting) :
    Suffices tokens most cost' c' s n := by
  refine ⟨h.within, hrounds ▸ h.rounds, ?_⟩
  have hreserve := c.reserve_deeper most hnesting hleft
  have hallowance := h.allowance
  omega

theorem not_zero (h : Suffices tokens most cost c s 0) (hcost : 0 < cost) : False := by
  have hallowance := h.allowance
  omega

theorem length_le (h : Suffices tokens most cost c s n) : s.tokens.length ≤ c.rounds :=
  Nat.le_trans h.within.length_le h.rounds

/-- A token that is not the last is passed. -/
theorem next (h : Suffices tokens most cost c s n) (hends : Ends tokens)
    (hkind : s.current.kind ≠ .finish) : s.Behind 1 s.next :=
  s.next_behind_of_ne hends h.within hkind

theorem grouping (h : Suffices tokens most cost c s n) (grouped : Bool) :
    Suffices tokens most cost { c with grouped } s n :=
  ⟨h.within, h.rounds, h.allowance⟩

theorem insideLoop (h : Suffices tokens most cost c s n) :
    Suffices tokens most cost { c with inLoop := true } s n :=
  ⟨h.within, h.rounds, h.allowance⟩

end Suffices

/-- The reader passes a token, and it has the allowance that it needs. -/
def Goes (tokens : List Token) (most cost : Nat) (f : Nat → ParserM α) (n : Nat) : Prop :=
  ∀ c s, Suffices tokens most cost c s n → Passes c (f n) s fun _ s' => s.Behind 1 s'

theorem Goes.zero {tokens : List Token} {most cost : Nat} {f : Nat → ParserM α} (hcost : 0 < cost) :
    Goes tokens most cost f 0 :=
  fun _ _ hs => (hs.not_zero hcost).elim

/-- With this allowance, every construct of the grammar is read or is an error of the text. What a
construct needs is given beside the levels that are left. -/
structure Descends (tokens : List Token) (most : Nat) (n : Nat) : Prop where
  blockItem : Goes tokens most 2 blockItem n
  expression : Goes tokens most 1 expression n
  assignment : Goes tokens most (most + 15) assignment n
  binary (level : Nat) : level ≤ BinaryOp.levels →
    Goes tokens most (most + 14 - level) (binary · level) n
  unary : Goes tokens most (most + 7) unary n
  postfixed : Goes tokens most (most + 6) postfixed n
  primary : Goes tokens most (most + 5) primary n
  delimited (close : Symbol) (what : Expected) (c : Context) (s : Cursor) :
    Suffices tokens most 2 c s n → Passes c (delimited n close what) s fun _ s' => s.Behind 0 s'
  object (c : Context) (s : Cursor) : Suffices tokens most 2 c s n → s.current.kind ≠ .finish →
    Passes c (object n) s fun _ s' => s.Behind 1 s'
  block : Goes tokens most 3 block n
  condition : Goes tokens most 2 condition n
  conditional (k : Nat) (c : Context) (s : Cursor) : Suffices tokens most (k + 4) c s n →
    s.current.kind = .keyword .if_ → (∀ j, ElseIfs c s j → j ≤ k) →
    Passes c (conditional n) s fun _ s' => s.Behind 1 s'
  loopBody : Goes tokens most 4 loopBody n

namespace Descends

variable {tokens : List Token} {most n : Nat}

theorem zero : Descends tokens most 0 where
  blockItem := .zero (by omega)
  expression := .zero (by omega)
  assignment := .zero (by omega)
  binary _ hlevel := .zero (by simp only [BinaryOp.levels] at hlevel; omega)
  unary := .zero (by omega)
  postfixed := .zero (by omega)
  primary := .zero (by omega)
  delimited _ _ _ _ hs := (hs.not_zero (by omega)).elim
  object _ _ hs _ := (hs.not_zero (by omega)).elim
  block := .zero (by omega)
  condition := .zero (by omega)
  conditional _ _ _ hs _ _ := (hs.not_zero (by omega)).elim
  loopBody := .zero (by omega)

theorem expression_succ (h : Descends tokens most n) :
    Goes tokens most 1 Parser.expression (n + 1) := by
  intro c s hs
  refine Passes.checkNesting fun hnesting => ?_
  exact h.assignment { c with nesting := c.nesting + 1 } s
    (hs.deeper (Nat.lt_succ_self 0) (Nat.le_refl _) rfl (Nat.lt_succ_self _) hnesting)

theorem condition_succ (h : Descends tokens most n) :
    Goes tokens most 2 Parser.condition (n + 1) := by
  intro c s hs
  refine Passes.bind ((h.expression { c with grouped := false } s
    ((hs.call (by omega)).grouping false)).mono fun test s' hs' => Passes.atSymbol ?_)
  split
  · exact .pure hs'
  · exact .bind (.unexpected _)

theorem loopBody_succ (h : Descends tokens most n) :
    Goes tokens most 4 Parser.loopBody (n + 1) := by
  intro c s hs
  refine Passes.atSymbol ?_
  split
  · exact h.block { c with inLoop := true } s (hs.call (by omega)).insideLoop
  · exact .bind (.unexpected _)

theorem assignment_succ (h : Descends tokens most n) :
    Goes tokens most (most + 15) Parser.assignment (n + 1) := by
  intro c s hs
  refine Passes.current (Passes.bind ?_)
  refine (h.binary 0 (Nat.zero_le _) c s (hs.call (by omega))).mono fun target s₁ hs₁ => ?_
  refine Passes.eat (fun hkind => ?_) (.pure hs₁)
  rw [if_pos rfl]
  split
  · refine Passes.checkNesting fun hnesting => Passes.bind ?_
    have hbehind := hs₁.trans s₁.next_behind
    refine (h.assignment { c with nesting := c.nesting + 1 } _ ((hs.behind hbehind).deeper
      (by omega) (Nat.le_refl _) rfl (Nat.lt_succ_self _) hnesting)).mono fun value s₂ hs₂ => ?_
    exact .pure ((hbehind.trans hs₂).mono (by omega))
  · exact .failAt _ (by simp)

theorem delimited_succ (h : Descends tokens most n) (close : Symbol) (what : Expected)
    (c : Context) (s : Cursor) (hs : Suffices tokens most 2 c s (n + 1)) :
    Passes c (Parser.delimited (n + 1) close what) s fun _ s' => s.Behind 0 s' := by
  rw [Parser.delimited_succ]
  have hround (items : List Expr) (s₁ : Cursor) (hs₁ : s.Behind 0 s₁) :
      Passes { c with grouped := true } (itemRound n close what items) s₁ fun r s₂ =>
        s₁.Behind (r.elim (fun _ => 1) fun _ => 0) s₂ := by
    refine Passes.eat (fun _ => .pure s₁.next_behind) (Passes.bind ?_)
    refine (h.expression _ s₁ (((hs.behind hs₁).call (by omega)).grouping true)).mono
      fun item s₂ hs₂ => ?_
    refine Passes.eat (fun _ => .pure ((hs₂.trans s₂.next_behind).mono (by simp))) ?_
    exact Passes.expect fun _ => .pure ((hs₂.trans s₂.next_behind).mono (by simp))
  exact Passes.repeatRounds (c := { c with grouped := true }) hs.length_le hround

variable (hends : Ends tokens)

include hends

theorem blockItem_succ (h : Descends tokens most n) :
    Goes tokens most 2 Parser.blockItem (n + 1) := by
  intro c s hs
  refine Passes.current ?_
  split
  case h_4 => exact h.expression c s (hs.call (by omega))
  all_goals
    rename_i hkind
    have hnext := hs.next hends (by simp [hkind])
    refine Passes.advance ?_
  · refine Passes.advance ?_
    split
    · refine Passes.expect fun _ => ?_
      have hbehind := (hnext.trans s.next.next_behind).trans s.next.next.next_behind
      refine Passes.bind ((h.expression c _ ((hs.call (by omega)).behind hbehind)).mono
        fun value s' hs' => Passes.pure ?_)
      exact (hbehind.trans hs').mono (by omega)
    · exact .failAt _ (by simp)
  all_goals
    refine Passes.read ?_
    split
    · exact .pure hnext
    · exact .failAt _ (by simp)

theorem binary_succ (h : Descends tokens most n) (level : Nat) (hlevel : level ≤ BinaryOp.levels) :
    Goes tokens most (most + 14 - level) (Parser.binary · level) (n + 1) := by
  intro c s hs
  simp only [Parser.binary_succ]
  split
  · rename_i htop
    obtain rfl := Nat.le_antisymm hlevel htop
    exact h.unary c s (hs.call (by simp [BinaryOp.levels]))
  · rename_i hlower
    replace hlower : level + 1 ≤ BinaryOp.levels := Nat.not_le.mp hlower
    have hsix : BinaryOp.levels = 6 := rfl
    refine Passes.bind ((h.binary (level + 1) hlower c s (hs.call (by omega))).mono
      fun first s₁ hs₁ => ?_)
    refine (Passes.repeatRounds (hs.behind hs₁).length_le fun state s₂ hs₂ => ?_).mono
      fun _ s' hs' => hs₁.trans hs'
    obtain ⟨chained, left⟩ := state
    refine Passes.continuesLine ?_
    split
    · exact .pure (.refl s₂)
    refine Passes.current ?_
    split
    · rename_i op hop
      split
      · refine Passes.checkNesting fun hnesting => Passes.advance (Passes.bind ?_)
        have hplace := (hs.behind hs₁).behind hs₂
        have hnext := hplace.next hends fun hfinish => by rw [hfinish] at hop; cases hop
        refine (h.binary (level + 1) hlower { c with nesting := c.nesting + (chained + 1) } _
          ((hplace.behind hnext).deeper (by omega) (by omega) rfl (by simp) (by omega))).mono
          fun right s₃ hs₃ => ?_
        exact .pure ((hnext.trans hs₃).mono (by simp))
      · exact .pure (.refl s₂)
    · exact .pure (.refl s₂)

theorem unary_succ (h : Descends tokens most n) :
    Goes tokens most (most + 7) Parser.unary (n + 1) := by
  intro c s hs
  refine Passes.current ?_
  split
  · rename_i op hop
    have hnext := hs.next hends fun hfinish => by rw [hfinish] at hop; cases hop
    refine Passes.advance (Passes.checkNesting fun hnesting => Passes.bind ?_)
    refine (h.unary { c with nesting := c.nesting + 1 } _ ((hs.behind hnext).deeper (by omega)
      (by omega) rfl (Nat.lt_succ_self _) hnesting)).mono fun operand s' hs' => ?_
    exact .pure ((hnext.trans hs').mono (by omega))
  · exact h.postfixed c s (hs.call (by omega))

theorem postfixed_succ (h : Descends tokens most n) :
    Goes tokens most (most + 6) Parser.postfixed (n + 1) := by
  intro c s hs
  rw [Parser.postfixed_succ]
  refine Passes.bind ((h.primary c s (hs.call (by omega))).mono fun first s₁ hs₁ => ?_)
  refine (Passes.repeatRounds (hs.behind hs₁).length_le fun state s₂ hs₂ => ?_).mono
    fun _ s' hs' => hs₁.trans hs'
  obtain ⟨chained, e⟩ := state
  have hplace := (hs.behind hs₁).behind hs₂
  refine Passes.current (Passes.checkNestingWhen fun hnesting => ?_)
  split
  case h_4 => exact .pure (.refl s₂)
  all_goals
    rename_i hkind
    have hnext := hplace.next hends (by simp [hkind])
    replace hnesting : c.nesting + chained < maxNesting := hnesting (by rw [hkind]; rfl)
  · refine Passes.advance (Passes.advance ?_)
    split
    · exact .pure (hnext.trans s₂.next.next_behind)
    · exact .failAt _ (by simp)
  · refine Passes.continuesLine ?_
    split
    · refine Passes.advance ?_
      split
      · refine Passes.bind ((h.delimited _ _ { c with nesting := c.nesting + (chained + 1) } _
          ((hplace.behind hnext).deeper (by omega) (by omega) rfl (by simp) (by omega))).mono
          fun args s₃ hs₃ => ?_)
        exact .pure (hnext.trans hs₃)
      · exact .failAt _ (by simp)
    · exact .pure (.refl s₂)
  · refine Passes.continuesLine ?_
    split
    · refine Passes.advance (Passes.bind ?_)
      refine (h.expression { c with nesting := c.nesting + (chained + 1), grouped := true } _
        ((hplace.behind hnext).deeper (by omega) (by omega) rfl (by simp) (by omega))).mono
        fun position s₃ hs₃ => Passes.expect fun _ => ?_
      exact .pure (((hnext.trans hs₃).trans s₃.next_behind).mono (by simp))
    · exact .pure (.refl s₂)

theorem object_succ (h : Descends tokens most n) (c : Context) (s : Cursor)
    (hs : Suffices tokens most 2 c s (n + 1)) (hkind : s.current.kind ≠ .finish) :
    Passes c (Parser.object (n + 1)) s fun _ s' => s.Behind 1 s' := by
  rw [Parser.object_succ]
  have hnext := hs.next hends hkind
  have hround (entries : List (String × Expr)) (s₁ : Cursor) (hs₁ : s.next.Behind 0 s₁) :
      Passes { c with grouped := true } (entryRound n entries) s₁ fun r s₂ =>
        s₁.Behind (r.elim (fun _ => 1) fun _ => 0) s₂ := by
    have hentry (key : String) : Passes { c with grouped := true } (do
        Parser.expect .colon .keyColon
        let value ← Parser.expression n
        let entries := (key, value) :: entries.filter fun entry => entry.1 ≠ key
        if ← Parser.eat .comma then return Sum.inl entries
        Parser.expect .closeBrace .entryEnd
        return .inr (.object entries.reverse) : ParserM (List (String × Expr) ⊕ Expr)) s₁.next
          fun r s₂ => s₁.Behind (r.elim (fun _ => 1) fun _ => 0) s₂ := by
      have hkey := s₁.next_behind.trans s₁.next.next_behind
      have hplace := (((hs.behind hnext).behind hs₁).behind hkey).grouping true
      refine Passes.expect fun _ => Passes.bind ?_
      refine (h.expression _ _ (hplace.call (by omega))).mono fun value s₂ hs₂ => ?_
      have hbehind := (hkey.trans hs₂).trans s₂.next_behind
      refine Passes.eat (fun _ => .pure (hbehind.mono (by simp))) ?_
      exact Passes.expect fun _ => .pure (hbehind.mono (by simp))
    refine Passes.eat (fun _ => .pure s₁.next_behind) (Passes.advance ?_)
    split
    · exact hentry _
    · exact hentry _
    · exact .bind (.failAt _ (by simp))
  refine Passes.advance ?_
  exact (Passes.repeatRounds (c := { c with grouped := true }) (hs.behind hnext).length_le
    hround).mono fun _ s' hs' => hnext.trans hs'

/-- The round of a block passes a token, unless it is the last round. -/
theorem block_succ (h : Descends tokens most n) :
    Goes tokens most 3 Parser.block (n + 1) := by
  intro c s hs
  rw [Parser.block_succ]
  refine Passes.expect fun hkind => ?_
  have hnext := hs.next hends (by simp [hkind])
  have hround (items : List Expr) (s₁ : Cursor) (hs₁ : s.next.Behind 0 s₁) :
      Passes { c with grouped := false } (blockRound n items) s₁ fun r s₂ =>
        s₁.Behind (r.elim (fun _ => 1) fun _ => 0) s₂ := by
    have hplace := ((hs.behind hnext).behind hs₁).grouping false
    refine Passes.eat (fun hkind => .pure (hplace.next hends (by simp [hkind]))) ?_
    refine Passes.eat (fun _ => .pure s₁.next_behind) (Passes.atFinish ?_)
    have hitem : Passes { c with grouped := false } (do
        let item ← Parser.blockItem n
        statementEnd
        return Sum.inl (item :: items) : ParserM (List Expr ⊕ Expr)) s₁ fun r s₂ =>
          s₁.Behind (r.elim (fun _ => 1) fun _ => 0) s₂ := by
      refine Passes.bind ((h.blockItem _ s₁ (hplace.call (by omega))).mono fun item s₂ hs₂ => ?_)
      exact Passes.bind (Passes.statementEnd.mono fun _ s₃ hs₃ => .pure (hs₂.trans hs₃))
    split
    · exact .bind (.unexpected _)
    · exact hitem
  exact (Passes.repeatRounds (c := { c with grouped := false }) (hs.behind hnext).length_le
    hround).mono fun _ s' hs' => hnext.trans hs'

/-- The chain behind a choice is one shorter than that choice's own. -/
theorem conditional_succ (h : Descends tokens most n) (k : Nat) (c : Context) (s : Cursor)
    (hs : Suffices tokens most (k + 4) c s (n + 1)) (hif : s.current.kind = .keyword .if_)
    (hchain : ∀ j, ElseIfs c s j → j ≤ k) :
    Passes c (Parser.conditional (n + 1)) s fun _ s' => s.Behind 1 s' := by
  have hnext := hs.next hends (by simp [hif])
  have hbranch : Passes c (branch n) s fun _ s' => s.Behind 1 s' := by
    refine Passes.advance (Passes.bind ?_)
    refine (h.condition c _ ((hs.call (by omega)).behind hnext)).mono fun test s₁ hs₁ => ?_
    refine Passes.bind ((h.block c _ (((hs.call (by omega)).behind hnext).behind hs₁)).mono
      fun yes s₂ hs₂ => ?_)
    exact .pure (((hnext.trans hs₁).trans hs₂).mono (by omega))
  have heq : Parser.conditional (n + 1) = branch n >>= fun (test, yes) => do
      if ← atKeyword .else_ then
        let _ ← advance
        if ← atKeyword .if_ then return .cond test yes (some (← Parser.conditional n))
        if ← atSymbol .openBrace then return .cond test yes (some (← Parser.block n))
        unexpected .elseBranch
      return .cond test yes none := by
    simp only [branch, bind_assoc, pure_bind]
    rfl
  rw [heq]
  refine Passes.bind (hbranch.and_run.mono fun parts s₁ hs₁ => ?_)
  obtain ⟨test, yes⟩ := parts
  obtain ⟨hs₁, hrun⟩ := hs₁
  refine Passes.atKeyword ?_
  split
  case isFalse => exact .pure hs₁
  rename_i helse
  replace helse := of_decide_eq_true helse
  have hplace := hs.behind hs₁
  have hskip := hs₁.trans (hplace.next hends (by simp [helse]))
  refine Passes.advance (Passes.atKeyword ?_)
  split
  · rename_i hchained
    replace hchained := of_decide_eq_true hchained
    -- no level is taken here: it is the bound on the chain that goes down
    have hmore {j : Nat} (hj : ElseIfs c s₁.next j) : ElseIfs c s (j + 1) :=
      .more hrun hs₁.1 helse hchained hj
    obtain ⟨k, rfl⟩ : ∃ k', k = k' + 1 := Nat.exists_eq_add_of_le' (hchain 1 (hmore .none))
    refine Passes.bind ((h.conditional k c s₁.next ((hs.behind hskip).call (by omega)) hchained
      fun j hj => Nat.le_of_succ_le_succ (hchain _ (hmore hj))).mono fun no s₂ hs₂ => ?_)
    exact .pure ((hskip.trans hs₂).mono (by omega))
  · refine Passes.atSymbol ?_
    split
    · refine Passes.bind ((h.block c s₁.next ((hs.behind hskip).call (by omega))).mono
        fun no s₂ hs₂ => ?_)
      exact .pure ((hskip.trans hs₂).mono (by omega))
    · exact .unexpected _

theorem primary_succ (h : Descends tokens most n)
    (hchains : ∀ c s k, s.tokens <:+ tokens → ElseIfs c s k → k ≤ most) :
    Goes tokens most (most + 5) Parser.primary (n + 1) := by
  intro c s hs
  have hcall {cost : Nat} (hcost : cost < most + 5) : Suffices tokens most cost c s n :=
    hs.call hcost
  refine Passes.current ?_
  generalize hkind : s.current.kind = kind
  have hnext (hfinish : kind ≠ .finish) : s.Behind 1 s.next := hs.next hends (hkind ▸ hfinish)
  cases kind with
  | integer | number | string | word => exact .advance (.pure (hnext (by simp)))
  | keyword word =>
    cases word with
    | true_ | false_ | null => exact .advance (.pure (hnext (by simp)))
    | if_ => exact h.conditional most c s (hcall (by omega)) hkind fun j => hchains c s j hs.within
    | while_ =>
      have hskip := hnext (by simp)
      refine Passes.advance (Passes.bind ?_)
      refine (h.condition c _ ((hcall (by omega)).behind hskip)).mono fun test s₁ hs₁ => ?_
      refine Passes.bind ((h.loopBody c _ (((hcall (by omega)).behind hskip).behind hs₁)).mono
        fun body s₂ hs₂ => ?_)
      exact .pure (((hskip.trans hs₁).trans hs₂).mono (by omega))
    | loop =>
      have hskip := hnext (by simp)
      refine Passes.advance (Passes.bind ?_)
      refine (h.loopBody c _ ((hcall (by omega)).behind hskip)).mono fun body s₁ hs₁ => ?_
      exact .pure ((hskip.trans hs₁).mono (by omega))
    | _ => exact .unexpected _
  | symbol symbol =>
    cases symbol with
    | openParen =>
      have hskip := hnext (by simp)
      refine Passes.advance (Passes.bind ?_)
      refine (h.expression { c with grouped := true } _
        (((hcall (by omega)).behind hskip).grouping true)).mono fun inner s₁ hs₁ => ?_
      refine Passes.expect fun _ => .pure ?_
      exact ((hskip.trans hs₁).trans s₁.next_behind).mono (by omega)
    | openBracket =>
      have hskip := hnext (by simp)
      refine Passes.advance (Passes.bind ?_)
      refine (h.delimited _ _ c _ ((hcall (by omega)).behind hskip)).mono fun items s₁ hs₁ => ?_
      exact .pure (hskip.trans hs₁)
    | openBrace =>
      refine Passes.objectAhead fun isObject => ?_
      split
      · exact h.object c s (hcall (by omega)) (by simp [hkind])
      · exact h.block c s (hcall (by omega))
    | _ => exact .unexpected _
  | finish => exact .unexpected _

end Descends

/-- Every allowance suffices for the places where it covers what is left to descend. -/
theorem Limited.descends {tokens : List Token} {most : Nat} (h : Limited tokens most) (n : Nat) :
    Descends tokens most n := by
  induction n with
  | zero => exact .zero
  | succ n ih =>
    exact {
      blockItem := ih.blockItem_succ h.ends
      expression := ih.expression_succ
      assignment := ih.assignment_succ
      binary := ih.binary_succ h.ends
      unary := ih.unary_succ h.ends
      postfixed := ih.postfixed_succ h.ends
      primary := ih.primary_succ h.ends h.chains
      delimited := ih.delimited_succ
      object := ih.object_succ h.ends
      block := ih.block_succ h.ends
      condition := ih.condition_succ
      conditional := ih.conditional_succ h.ends
      loopBody := ih.loopBody_succ }

/-! ### Texts -/

namespace Descends

variable {tokens : List Token} {most n : Nat}

theorem statement (h : Descends tokens most n) : Goes tokens most 2 (Parser.statement ·) n := by
  intro c s hs
  refine Passes.current (Passes.bind ((h.blockItem c s hs).mono fun e s' hs' => ?_))
  split
  · exact .bind (.failAt _ (by simp))
  · exact hs'

theorem statements (h : Descends tokens most n) (hends : Ends tokens) (c : Context) (s : Cursor)
    (hs : Suffices tokens most 2 c s n) :
    Passes c (Parser.statements n) s fun _ s' => s.Behind 0 s' := by
  rw [statements_eq]
  refine Passes.repeatRounds hs.length_le fun read s₁ hs₁ => Passes.atFinish ?_
  have hplace := hs.behind hs₁
  split
  · exact .pure (.refl s₁)
  refine Passes.eat (fun hkind => .pure (hplace.next hends (by simp [hkind]))) ?_
  refine Passes.bind ((h.statement c s₁ hplace).mono fun e s₂ hs₂ => ?_)
  exact Passes.bind (Passes.statementEnd.mono fun _ s₃ hs₃ => .pure (hs₂.trans hs₃))

end Descends

theorem Ends.of_lexed {c : Lexer.Cursor} {tokens : List Token} (h : Lexer.Lexed c tokens) :
    Ends tokens := by
  induction h with
  | finish _ hkind => exact ⟨[], _, rfl, hkind⟩
  | cons _ _ _ ih =>
    obtain ⟨before, finish, rfl, hfinish⟩ := ih
    exact ⟨_ :: before, finish, rfl, hfinish⟩

theorem Ends.of_tokenize {name source : String} {tokens : List Token}
    (h : Lexer.tokenize name source = .ok tokens) : Ends tokens := by
  unfold Lexer.tokenize at h
  split at h
  · rename_i htokens
    cases h
    obtain ⟨_, rfl, hlexed⟩ := Lexer.lexed_of_tokensFrom htokens
    exact .of_lexed hlexed
  · cases h

/-- An allowance for every text in which no choice goes on with more than so many others. -/
def descentBound (most : Nat) : Nat :=
  maxNesting * (most + 15) + 2

/-- If no choice in a text goes on with more than `most` others, an allowance that depends on the
limit and on `most` alone does not give out, and a larger one changes nothing. -/
theorem readStatements_descentBound {name source : String} {tokens : List Token} {most : Nat}
    (htokens : Lexer.tokenize name source = .ok tokens)
    (hchains : ∀ c s k, s.tokens <:+ tokens → ElseIfs c s k → k ≤ most) :
    (∀ e, readStatements (descentBound most) name tokens = .error e →
      e.fault ≠ .recursionExhausted) ∧
    ∀ allowance, descentBound most ≤ allowance →
      readStatements allowance name tokens = readStatements (descentBound most) name tokens := by
  have hlimited : Limited tokens most := ⟨.of_tokenize htokens, hchains⟩
  have hfault (e : SyntaxError)
      (he : readStatements (descentBound most) name tokens = .error e) :
      e.fault ≠ .recursionExhausted := by
    rcases tokens with _ | ⟨first, ahead⟩
    · cases he
    let c : Context := ⟨name, 0, false, false, ahead.length + 2⟩
    have hsuffices : Suffices (first :: ahead) most 2 c ⟨first, ahead, .start⟩
        (descentBound most) :=
      ⟨List.suffix_refl _, Nat.le_succ _, Nat.le_refl _⟩
    have hpasses := (hlimited.descends _).statements hlimited.ends c _ hsuffices
    rw [readStatements_cons] at he
    rw [Passes] at hpasses
    cases hstatements : statements (descentBound most) c ⟨first, ahead, .start⟩ with
    | ok r =>
      rw [hstatements] at he
      cases he
    | error e' =>
      rw [hstatements] at he hpasses
      cases he
      exact hpasses
  exact ⟨hfault, fun allowance hle => readStatements_of_le hle name tokens hfault⟩

/-- A chain is no longer than the text has tokens `else`. -/
theorem ElseIfs.le_countP {c : Context} {s : Cursor} {k : Nat} (h : ElseIfs c s k) :
    k ≤ s.tokens.countP fun t => t.kind = .keyword .else_ := by
  induction h with
  | none => exact Nat.zero_le _
  | @more s s' n parts k _ hwithin helse hif _ ih =>
    obtain ⟨alternative, _ | ⟨next, rest⟩, behind⟩ := s'
    · cases helse.symm.trans hif
    · refine Nat.le_trans (Nat.succ_le_succ ih) (Nat.le_trans ?_ hwithin.sublist.countP_le)
      replace helse : alternative.kind = .keyword .else_ := helse
      simp [Cursor.tokens, Cursor.next, helse]

/-- A choice that goes on with one other. -/
theorem readStatements_descentBound_choice : ∃ tokens,
    Lexer.tokenize "choice" "if a \x7b 1 \x7d else if b \x7b 2 \x7d" = .ok tokens ∧
    (∀ c s k, s.tokens <:+ tokens → ElseIfs c s k → k ≤ 1) ∧
    (∀ e, readStatements (descentBound 1) "choice" tokens = .error e →
      e.fault ≠ .recursionExhausted) ∧
    ∀ allowance, descentBound 1 ≤ allowance →
      readStatements allowance "choice" tokens =
        readStatements (descentBound 1) "choice" tokens := by
  obtain ⟨tokens, htokens, hcount⟩ : ∃ tokens,
      Lexer.tokenize "choice" "if a \x7b 1 \x7d else if b \x7b 2 \x7d" = .ok tokens ∧
      tokens.countP (fun t => t.kind = .keyword .else_) = 1 := ⟨_, rfl, by decide⟩
  have hchains (c : Context) (s : Cursor) (k : Nat) (hs : s.tokens <:+ tokens)
      (h : ElseIfs c s k) : k ≤ 1 :=
    Nat.le_trans h.le_countP (Nat.le_trans hs.sublist.countP_le (Nat.le_of_eq hcount))
  exact ⟨tokens, htokens, hchains, readStatements_descentBound htokens hchains⟩

/-! ### Chains without a limit -/

/-- The text of a choice that goes on with so many others. -/
def choiceChars : Nat → List Char
  | 0 => "if a \x7b\x7d".toList
  | m + 1 => "if a \x7b\x7d else ".toList ++ choiceChars m

/-- The tokens of that text. -/
def choiceKinds : Nat → List Token.Kind
  | 0 => [.keyword .if_, .word "a", .symbol .openBrace, .symbol .closeBrace]
  | m + 1 => [.keyword .if_, .word "a", .symbol .openBrace, .symbol .closeBrace, .keyword .else_] ++
    choiceKinds m

/-- The first token of a choice. -/
theorem exists_cons_of_choice {m : Nat} {choice : List Token}
    (h : choice.map Token.kind = choiceKinds m) :
    ∃ first rest, choice = first :: rest ∧ first.kind = .keyword .if_ := by
  obtain ⟨kinds, hkinds⟩ : ∃ kinds, choiceKinds m = .keyword .if_ :: kinds := by
    cases m <;> exact ⟨_, rfl⟩
  rw [hkinds] at h
  obtain ⟨first, rest, rfl, hfirst, -⟩ := List.map_eq_cons_iff.mp h
  exact ⟨first, rest, rfl, hfirst⟩

theorem spells_choice (m : Nat) : Lexer.Spells (choiceChars m) (choiceKinds m) [] := by
  have hspace (cs : List Char) : Lexer.Detached (' ' :: cs) := .cons (by decide) (by decide) cs
  have hif (rest : List Char) : Lexer.Spells ['i', 'f'] [.keyword .if_] (' ' :: rest) :=
    .word (by decide) (by decide) ⟨'i', _, rfl, by decide, by decide, by decide⟩ (by decide)
      (hspace rest)
  have hname (rest : List Char) : Lexer.Spells [' ', 'a'] [.word "a"] (' ' :: rest) :=
    .space (.word (by decide) (by decide) ⟨'a', _, rfl, by decide, by decide, by decide⟩
      (by decide) (hspace rest)) (by simp)
  have hopening (rest : List Char) : Lexer.Spells [' ', '\x7b'] [.symbol .openBrace] rest :=
    .space (.symbol (by decide) rfl rest) (by simp)
  have hclosing (rest : List Char) : Lexer.Spells ['\x7d'] [.symbol .closeBrace] rest :=
    .symbol (by decide) rfl rest
  have helse (rest : List Char) :
      Lexer.Spells [' ', 'e', 'l', 's', 'e'] [.keyword .else_] (' ' :: rest) :=
    .space (.word (by decide) (by decide) ⟨'e', _, rfl, by decide, by decide, by decide⟩
      (by decide) (hspace rest)) (by simp)
  have hbranch (rest : List Char) :
      Lexer.Spells "if a \x7b\x7d".toList (choiceKinds 0) rest :=
    (hif _).cons ((hname _).cons ((hopening _).cons (hclosing rest)))
  induction m with
  | zero => exact hbranch []
  | succ m ih =>
    have hne : choiceKinds m ≠ [] := by cases m <;> simp [choiceKinds]
    exact (hbranch _).append ((helse _).cons (ih.space hne))

section Choices

variable {c : Context} {t next : Token} {ts : List Token}

/-- A name in front of a brace is a test. -/
theorem condition_reads {name : String} (ht : t.kind = .word name)
    (hnext : next.kind = .symbol .openBrace) (hnesting : c.nesting < maxNesting)
    (hrounds : 0 < c.rounds) :
    ReadsBy 13 True c condition (t :: next :: ts) (.ref name) (next :: ts) := by
  have hstops (level : Nat) : Stops level next.kind := by
    rw [hnext]
    exact fun _ hop => nomatch hop
  have hoperand : ReadsBy 3 True { c with grouped := false, nesting := c.nesting + 1 } unary
      (t :: next :: ts) (.ref name) (next :: ts) :=
    .leaf_unary _ ts (by rw [ht]; rfl) (by rw [hnext]; rfl) fun _ => hrounds
  have hbinary : ReadsBy 10 True { c with grouped := false, nesting := c.nesting + 1 }
      (binary · 0) (t :: next :: ts) (.ref name) (next :: ts) :=
    hoperand.binary_top.binary_looser BinaryOp.levels (Nat.le_refl _) (fun k _ _ => hstops k)
      fun _ => hrounds
  have hexpression : ReadsBy 12 True { c with grouped := false } expression (t :: next :: ts)
      (.ref name) (next :: ts) :=
    (hbinary.assignment (by simp [hnext])).expression fun _ => hnesting
  refine ReadsBy.succ rfl fun n => Reads.bind (.grouping (hexpression n)) ?_
  refine Reads.bind .atSymbol ?_
  simp only [hnext, decide_true, if_true]
  exact .pure _

/-- Two braces are a block. -/
theorem block_reads {close : Token} (ht : t.kind = .symbol .openBrace)
    (hclose : close.kind = .symbol .closeBrace) (hrounds : 0 < c.rounds) :
    ReadsBy 1 True c block (t :: close :: next :: ts) (.block []) (next :: ts) := by
  refine ReadsBy.succ rfl fun n => ?_
  rw [Parser.block_succ]
  refine Reads.bind (.expect ht) (.grouping (.read (.rounds_stop (fun _ => hrounds) ?_)))
  refine Reads.bind (.eat_stay (by simp [hclose])) (Reads.bind (.eat_pass hclose) ?_)
  exact .pure _

variable {m n : Nat} {s : Cursor}

theorem checkNesting_of_lt {more : Nat} (h : c.nesting + more < maxNesting) :
    checkNesting more c s = .ok ((), s) := by
  have hnot : ¬maxNesting ≤ c.nesting + more := Nat.not_le.mpr h
  change (if maxNesting ≤ c.nesting + more then _ else (pure () : ParserM Unit)) c s = _
  rw [if_neg hnot]
  rfl

theorem atKeyword_run {keyword : Keyword} (hs : s.tokens = t :: ts)
    (ht : t.kind = .keyword keyword) : atKeyword keyword c s = .ok (true, s) := by
  obtain ⟨rfl, -⟩ := List.cons.inj hs
  change Except.ok (decide (s.current.kind = .keyword keyword), s) = _
  rw [decide_eq_true ht]

/-- Each choice of a chain takes one of an allowance. -/
theorem conditional_exhausts (hn : n ≤ m) (hnesting : c.nesting + 1 < maxNesting)
    (hrounds : 0 < c.rounds) {choice : List Token} {finish : Token}
    (hchoice : choice.map Token.kind = choiceKinds m) (hs : s.tokens = choice ++ [finish]) :
    Exhausts c (conditional n) s := by
  induction n generalizing m s choice with
  | zero => exact .exhausted c s
  | succ n ih =>
    obtain ⟨m, rfl⟩ : ∃ k, m = k + 1 := ⟨m - 1, by omega⟩
    obtain ⟨first, choice, rfl, -, hchoice⟩ := List.map_eq_cons_iff.mp hchoice
    obtain ⟨name, choice, rfl, hname, hchoice⟩ := List.map_eq_cons_iff.mp hchoice
    obtain ⟨opening, choice, rfl, hopening, hchoice⟩ := List.map_eq_cons_iff.mp hchoice
    obtain ⟨closing, choice, rfl, hclosing, hchoice⟩ := List.map_eq_cons_iff.mp hchoice
    obtain ⟨alternative, choice, rfl, halternative, hchoice⟩ := List.map_eq_cons_iff.mp hchoice
    have hskip (ts : List Token) : Reads True c advance (first :: name :: ts) first (name :: ts) :=
      .advance
    obtain ⟨s₁, hs₁, hrun₁⟩ := (hskip _).run trivial hs
    refine .bind_ok hrun₁ ?_
    have hcondition := (condition_reads hname hopening (Nat.lt_of_succ_lt hnesting)
      hrounds).run_or_exhausts (fun n => (extended n).condition) n hs₁
    rcases hcondition with ⟨s₂, hs₂, hrun₂⟩ | hexhausts
    swap
    · exact hexhausts.bind _
    refine .bind_ok hrun₂ ?_
    have hblock := (block_reads hopening hclosing hrounds).run_or_exhausts
      (fun n => (extended n).block) n hs₂
    rcases hblock with ⟨s₃, hs₃, hrun₃⟩ | hexhausts
    swap
    · exact hexhausts.bind _
    refine .bind_ok hrun₃ (.bind_ok (atKeyword_run hs₃ halternative) ?_)
    have hskip : Reads True c advance (alternative :: (choice ++ [finish])) alternative
        (choice ++ [finish]) := advance_append []
    obtain ⟨s₄, hs₄, hrun₄⟩ := hskip.run trivial hs₃
    obtain ⟨_, choice, rfl, hif⟩ := exists_cons_of_choice hchoice
    refine .bind_ok hrun₄ (.bind_ok (atKeyword_run hs₄ hif) ?_)
    exact (ih (by omega) hchoice hs₄).bind _

/-- A construct that starts with another one gives out with that. -/
theorem Exhausts.succ {f g : Nat → ParserM α} (hzero : f 0 = Parser.exhausted)
    (hsucc : ∀ k, Exhausts c (g k) s → Exhausts c (f (k + 1)) s)
    (h : ∀ k < n, Exhausts c (g k) s) : Exhausts c (f n) s := by
  rcases n with _ | n
  · rw [hzero]
    exact .exhausted c s
  · exact hsucc n (h n (Nat.lt_succ_self n))

/-- What stands around a choice takes no token in front of it, so it gives out with the chain. -/
theorem blockItem_exhausts (hn : n ≤ m) (hnesting : c.nesting + 2 < maxNesting)
    (hrounds : 0 < c.rounds) {choice : List Token} {finish : Token}
    (hchoice : choice.map Token.kind = choiceKinds m) (hs : s.tokens = choice ++ [finish]) :
    Exhausts c (blockItem n) s := by
  have hconditional (k : Nat) (hk : k < n) :
      Exhausts { c with nesting := c.nesting + 1 } (conditional k) s :=
    conditional_exhausts (Nat.le_trans (Nat.le_of_lt hk) hn) hnesting hrounds hchoice hs
  obtain ⟨first, rest, rfl, hif⟩ := exists_cons_of_choice hchoice
  obtain ⟨⟨kind, start, last, newline⟩, ahead, behind⟩ := s
  obtain ⟨rfl, -⟩ := List.cons.inj hs
  cases hif
  let s : Cursor := ⟨⟨.keyword .if_, start, last, newline⟩, ahead, behind⟩
  let d : Context := { c with nesting := c.nesting + 1 }
  have hprimary (k : Nat) (hk : k < n) : Exhausts d (primary k) s :=
    .succ (g := conditional) rfl (fun _ h => h) fun j hj => hconditional j (hj.trans hk)
  have hpostfixed (k : Nat) (hk : k < n) : Exhausts d (postfixed k) s :=
    .succ (g := primary) rfl (fun _ h => h.bind _) fun j hj => hprimary j (hj.trans hk)
  have hunary (k : Nat) (hk : k < n) : Exhausts d (unary k) s :=
    .succ (g := postfixed) rfl (fun _ h => h) fun j hj => hpostfixed j (hj.trans hk)
  have hbinary (k level : Nat) (hk : k < n) : Exhausts d (binary k level) s := by
    induction k generalizing level with
    | zero => exact .exhausted d s
    | succ k ih =>
      rw [binary_succ]
      split
      · exact hunary k (Nat.lt_of_succ_lt hk)
      · exact (ih (level + 1) (Nat.lt_of_succ_lt hk)).bind _
  have hassignment (k : Nat) (hk : k < n) : Exhausts d (assignment k) s :=
    .succ (g := (binary · 0)) rfl (fun _ h => .bind_ok rfl (h.bind _))
      fun j hj => hbinary j 0 (hj.trans hk)
  have hlevel : c.nesting + 0 < maxNesting := Nat.lt_of_succ_lt (Nat.lt_of_succ_lt hnesting)
  have hexpression (k : Nat) (hk : k < n) : Exhausts c (expression k) s :=
    .succ (g := fun k => deeper 1 (assignment k)) rfl
      (fun _ h => .bind_ok (checkNesting_of_lt hlevel) h)
      fun j hj => hassignment j (hj.trans hk)
  exact .succ (g := expression) rfl (fun _ h => h) hexpression

end Choices

/-- No allowance suffices for every text: each choice behind an `else` descends once more, and no
level is counted for it. -/
theorem no_allowance_suffices : ¬∃ allowance, ∀ name source tokens,
    Lexer.tokenize name source = .ok tokens → ∀ e,
      readStatements allowance name tokens = .error e → e.fault ≠ .recursionExhausted := by
  rintro ⟨allowance, h⟩
  obtain ⟨tokens, htokens, hkinds, -⟩ := (spells_choice allowance).tokens
  obtain ⟨choice, last, rfl, hchoice, hlast⟩ := List.map_eq_append_iff.mp hkinds
  obtain ⟨finish, rfl, -⟩ := List.map_eq_singleton_iff.mp hlast
  obtain ⟨first, ahead, rfl, hif⟩ := exists_cons_of_choice hchoice
  let c : Context := ⟨"choices", 0, false, false, (ahead ++ [finish]).length + 2⟩
  let s : Cursor := ⟨first, ahead ++ [finish], .start⟩
  have hlevels : c.nesting + 2 < maxNesting := Nat.lt_of_sub_pos (by decide : 0 < maxNesting - 2)
  have hitem : Exhausts c (blockItem allowance) s :=
    blockItem_exhausts (Nat.le_refl _) hlevels (Nat.succ_pos _) hchoice rfl
  have hround : Exhausts c (statementRound allowance []) s := by
    refine .bind_ok (atFinish_run c s) ?_
    rw [if_neg (by simp [s, hif])]
    refine .bind_ok (eat_of_ne (by simp [s, hif])) ?_
    have hstatement : Exhausts c (statement allowance) s :=
      Exhausts.bind_ok (current_run c s) (hitem.bind _)
    exact hstatement.bind _
  have hstatements : Exhausts c (statements allowance) s := by
    change Exhausts c (rounds (statementRound allowance) ((ahead ++ [finish]).length + 2) []) s
    exact hround.bind _
  obtain ⟨e, he, hfault⟩ := hstatements
  have hread : readStatements allowance "choices" (first :: (ahead ++ [finish])) = .error e := by
    rw [readStatements_cons, he]
    rfl
  have htokenize : Lexer.tokenize "choices" (String.ofList (choiceChars allowance)) =
      .ok (first :: (ahead ++ [finish])) := by
    rw [Lexer.tokenize, htokens]
    rfl
  exact h "choices" _ _ htokenize e hread hfault

end Parser

end Covenant
