import Covenant.Proofs.Control

/-!
# The code of an expression computes it

By induction on where declarations and jumps stand in an expression, its code computes the
evaluation of the expression whose repetitions take the jumps of their tests: in the code a loop
is open while its test is computed.

## Main definitions

* `Enclosed` : whether there is a loop around the code, and that it is the innermost one.

## Main results

* `translates` : the code of an expression computes it.
* `Computes.item` : the code of an item of a block, which may be a declaration.
-/

namespace Covenant

open Eval Computes

variable {ι σ : Type} {setting : Setting ι σ} {program : Program} {rounds : Nat}
  {target : Option Target} {site : Site} {stack : List Value}

namespace Target.Encloses

variable {t : Target}

theorem above (h : t.Encloses site stack) (above : List Value) :
    t.Encloses site (above ++ stack) :=
  { h with suffix := h.suffix.trans (List.suffix_append above stack) }

theorem depth_le (h : t.Encloses site stack) : t.site.depth ≤ site.depth := by
  obtain ⟨n, hn, -⟩ := h.site
  omega

/-- The innermost frame of a block in a loop is not one that the loop uses. -/
theorem inBlock (h : t.Encloses site stack) {S : Scopes UInt16} (hpop : S.pop = site.scopes)
    (capacity : Nat) : t.Encloses { site.push capacity with scopes := S } stack := by
  obtain ⟨hloops, hsuffix, hsize, hcount, n, hn, hsite⟩ := h
  refine ⟨hloops, hsuffix, hsize, hcount, n + 1, ?_, ?_⟩
  · have hdepth : Site.depth { site.push capacity with scopes := S } = site.depth + 1 := rfl
    omega
  · rw [hsite]
    simp only [Site.outward, Site.push, List.drop_succ_cons, ← hpop, Scopes.pop, List.drop_tail]

end Target.Encloses

/-- If code is inside a loop then there is a target, and a target is the innermost loop around the
code. -/
structure Enclosed (inLoop : Bool) (target : Option Target) (site : Site) (stack : List Value) :
    Prop where
  exists_target : inLoop = true → ∃ t, t ∈ target
  encloses : ∀ t ∈ target, t.Encloses site stack

namespace Enclosed

variable {inLoop : Bool}

theorem above (h : Enclosed inLoop target site stack) (above : List Value) :
    Enclosed inLoop target site (above ++ stack) :=
  ⟨h.exists_target, fun t ht => (h.encloses t ht).above above⟩

theorem inBlock (h : Enclosed inLoop target site stack) {S : Scopes UInt16}
    (hpop : S.pop = site.scopes) (capacity : Nat) :
    Enclosed inLoop target { site.push capacity with scopes := S } stack :=
  ⟨h.exists_target, fun t ht => (h.encloses t ht).inBlock hpop capacity⟩

theorem ofLoop (site : Site) (stack : List Value) (start done : Nat) :
    Enclosed inLoop (some (site.loopTarget stack start done)) (site.inLoop stack start done)
      stack := by
  refine ⟨fun _ => ⟨_, rfl⟩, ?_⟩
  rintro t ⟨⟩
  exact site.loopTarget_encloses stack start done

end Enclosed

/-- A part has as many levels left as there are above the depth of the whole. -/
theorem Expr.depth_part {e part : Expr} {depth limit : Nat} (h : depth + e.depth ≤ limit)
    (hpart : part ∈ e.children) : depth + 1 + part.depth ≤ limit := by
  have hlt := depth_lt_of_mem_children hpart
  omega

/-- The code of an expression computes it at every place that the expression may have. -/
def Compiles (setting : Setting ι σ) (program : Program) (allowance : Nat) (inLoop : Bool)
    (e : Expr) : Prop :=
  ∀ target site stack depth, Enclosed inLoop target site stack →
    depth + e.encloseTests.depth ≤ setting.limits.maxExpressionDepth.toNat →
    Translates setting program allowance target site stack e
      (eval setting allowance depth e.encloseTests)

section Items

variable {allowance : Nat} {inLoop : Bool}

/-- The code of an item of a block. If the item is a declaration, the code behind it sees the name
that it binds. -/
theorem Computes.item (hfree : setting.limits.maxSteps = none) {e : Expr}
    (he : Compiles setting program allowance inLoop e.payload) {depth base last : Nat}
    {S' : Scopes UInt16} (henclosed : Enclosed inLoop target site stack)
    (hdepth : depth + e.encloseTests.depth ≤ setting.limits.maxExpressionDepth.toNat)
    (hcode : CodeOf program site.scopes base e last S')
    (hroom : ∀ capacity ∈ site.capacities.head?, S'.localCount ≤ capacity) :
    Computes setting program allowance target site { site with scopes := S' } base last stack
      (eval setting allowance depth e.encloseTests) := by
  cases e with
  | declare name value =>
    cases hcode with
    | declare hvalue hdeclares hop =>
      simp only [Expr.encloseTests] at hdepth ⊢
      have hpart := Expr.depth_part hdepth List.mem_cons_self
      obtain ⟨rfl, hx⟩ := he target site stack (depth + 1) henclosed hpart _ _ _ hvalue
      rw [eval_eq]
      exact enter hfree (by omega) (declare hfree (hx []) hdeclares hop hroom)
  | _ =>
    obtain ⟨rfl, hx⟩ := he target site stack depth henclosed hdepth _ _ _ hcode
    exact hx []

/-- The code of items one behind the other, each of which sees what those before it bind. -/
theorem Computes.items (hfree : setting.limits.maxSteps = none) {e : Expr} {rest : List Expr}
    (hes : ∀ item ∈ e :: rest, Compiles setting program allowance inLoop item.payload)
    (hstatic : ∀ item ∈ e :: rest, ∀ S base last S',
      CodeOf program S base item.payload last S' → S' = S)
    (henclosed : ∀ S, site.scopes.Widens S →
      Enclosed inLoop target { site with scopes := S } stack)
    {depth base mid last : Nat} {S₁ S₂ : Scopes UInt16}
    (hdepth : ∀ item ∈ e :: rest,
      depth + item.encloseTests.depth ≤ setting.limits.maxExpressionDepth.toNat)
    (hhead : CodeOf program site.scopes base e mid S₁)
    (htail : CodeOfRest program S₁ mid rest last S₂)
    (hroom : ∀ capacity ∈ site.capacities.head?, S₂.localCount ≤ capacity) :
    Computes setting program allowance target site { site with scopes := S₂ } base last stack
      (Eval.inTurn .null
        ((e :: rest).map fun item => eval setting allowance depth item.encloseTests)) := by
  rw [List.forall_mem_cons] at hes hstatic hdepth
  have hwidens := hhead.widens hstatic.1
  have hwidens' := htail.widens hstatic.2
  have hroom₁ (capacity : Nat) (hcapacity : capacity ∈ site.capacities.head?) :=
    Nat.le_trans hwidens'.localCount (hroom capacity hcapacity)
  have hfirst := item hfree hes.1 (henclosed _ (.refl _)) hdepth.1 hhead hroom₁
  intro w m h
  refine (hfirst w m h).bind fun v w₁ m₁ h₁ => ?_
  refine inTurn hfree hstatic.2 (fun e he S base last S' hS hcode hroom' => ?_) htail hwidens hroom
    v h₁
  exact item hfree (hes.2 e he) (henclosed S hS) (hdepth.2 e he) hcode hroom'

end Items

/-! ### The constructs -/

section Constructs

variable {allowance : Nat} {inLoop : Bool} (hfree : setting.limits.maxSteps = none)

include hfree

/-- Once its node is entered, an expression is what its construct makes of its parts. -/
theorem Compiles.of_node {e : Expr}
    (h : ∀ target site stack depth, Enclosed inLoop target site stack →
      (∀ part ∈ e.encloseTests.children,
        depth + 1 + part.depth ≤ setting.limits.maxExpressionDepth.toNat) →
      Translates setting program allowance target site stack e
        (evalNode setting allowance (eval setting allowance (depth + 1)) e.encloseTests)) :
    Compiles setting program allowance inLoop e := by
  intro target site stack depth henclosed hdepth base last S' hcode
  have hpos := e.encloseTests.depth_pos
  obtain ⟨hscopes, hx⟩ := h target site stack depth henclosed
    (fun part hpart => Expr.depth_part hdepth hpart) base last S' hcode
  rw [eval_eq]
  exact ⟨hscopes, fun above => enter hfree (by omega) (hx above)⟩

theorem compiles_binary {left right : Expr} {op : BinaryOp}
    (hleft : Compiles setting program allowance inLoop left)
    (hright : Compiles setting program allowance inLoop right) :
    Compiles setting program allowance inLoop (.binary left op right) := by
  refine .of_node hfree fun target site stack depth henclosed hdepth base last S' hcode => ?_
  simp only [Expr.encloseTests, Expr.children, List.forall_mem_cons] at hdepth ⊢
  have hx := hleft target site stack (depth + 1) henclosed hdepth.1
  have hy := hright target site stack (depth + 1) henclosed hdepth.2.1
  cases hcode with
  | binary hlogical hcodeLeft hcodeRight hop =>
    obtain ⟨rfl, hl⟩ := hx _ _ _ hcodeLeft
    obtain ⟨rfl, hr⟩ := hy _ _ _ hcodeRight
    refine ⟨rfl, fun above => ?_⟩
    simp only [evalNode, hlogical, Bool.false_eq_true, if_false]
    exact operate₂ hfree (hl above) (fun a => hr (a :: above)) hop fun _ _ _ => rfl
  | logical hlogical hcodeLeft hshort hcodeRight hrequire hdone =>
    obtain ⟨rfl, hl⟩ := hx _ _ _ hcodeLeft
    obtain ⟨rfl, hr⟩ := hy _ _ _ hcodeRight
    refine ⟨rfl, fun above => ?_⟩
    simp only [evalNode, hlogical, if_true]
    exact Computes.logical hfree (hl above) hshort (hr above) hrequire hdone

theorem compiles_block {items : List Expr}
    (hstatic : ∀ item ∈ items, ∀ S base last S',
      CodeOf program S base item.payload last S' → S' = S)
    (hitems : ∀ item ∈ items, Compiles setting program allowance inLoop item.payload) :
    Compiles setting program allowance inLoop (.block items) := by
  refine .of_node hfree fun target site stack depth henclosed hdepth base last S' hcode => ?_
  simp only [Expr.encloseTests, Expr.encloseTestsAll_eq, Expr.children,
    List.forall_mem_map] at hdepth ⊢
  have htarget (t : Target) (ht : t ∈ target) := (henclosed.encloses t ht).depth_le
  cases hcode with
  | @emptyBlock _ _ slots _ henter hnull hpool hexit =>
    refine ⟨rfl, fun above => ?_⟩
    have hbody : Computes setting program allowance target (site.push slots.toNat)
        (site.push slots.toNat) (base + 1) (base + 2) (above ++ stack) (pure .null) :=
      literal hfree hnull hpool
    exact block hfree henter hbody hexit rfl htarget
  | block henter hhead htail hexit hslots =>
    have hpop := ((hhead.widens (hstatic _ List.mem_cons_self)).trans
      (htail.widens fun e he => hstatic e (List.mem_cons_of_mem _ he))).pop
    refine ⟨hpop, fun above => ?_⟩
    simp only [evalNode, List.map_map]
    refine block hfree henter ?_ hexit hpop htarget
    refine items hfree hitems hstatic (fun S hS => ?_) hdepth hhead htail ?_
    · exact (henclosed.above above).inBlock hS.pop _
    · rintro capacity ⟨⟩
      exact Nat.le_of_eq hslots.symm

theorem compiles_cond {test yes : Expr} {no : Option Expr}
    (htest : Compiles setting program allowance inLoop test)
    (hyes : Compiles setting program allowance inLoop yes)
    (hno : ∀ e ∈ no, Compiles setting program allowance inLoop e) :
    Compiles setting program allowance inLoop (.cond test yes no) := by
  refine .of_node hfree fun target site stack depth henclosed hdepth base last S' hcode => ?_
  cases hcode with
  | cond hcodeTest hif hcodeYes hjump helse htoElse htoEnd =>
    cases helse with
    | none hnull hpool =>
      simp only [Expr.encloseTests, Expr.children, List.forall_mem_cons] at hdepth ⊢
      obtain ⟨rfl, hx⟩ := htest target site stack (depth + 1) henclosed hdepth.1 _ _ _ hcodeTest
      obtain ⟨rfl, hy⟩ := hyes target site stack (depth + 1) henclosed hdepth.2.1 _ _ _ hcodeYes
      exact ⟨rfl, fun above => Computes.choice hfree (hx above) hif (hy above) hjump
        (literal hfree hnull hpool) htoElse htoEnd⟩
    | @some _ _ _ _ e hcodeNo =>
      simp only [Expr.encloseTests, Expr.children, Option.toList_some, List.forall_mem_cons]
        at hdepth ⊢
      obtain ⟨rfl, hx⟩ := htest target site stack (depth + 1) henclosed hdepth.1 _ _ _ hcodeTest
      obtain ⟨rfl, hy⟩ := hyes target site stack (depth + 1) henclosed hdepth.2.1 _ _ _ hcodeYes
      obtain ⟨rfl, hz⟩ := hno e rfl target site stack (depth + 1) henclosed hdepth.2.2.1 _ _ _
        hcodeNo
      exact ⟨rfl, fun above => Computes.choice hfree (hx above) hif (hy above) hjump (hz above)
        htoElse htoEnd⟩

/-- A test without jumps, and then the body. The test is computed with the loop open, but does not
get to it. -/
theorem computes_round {start done : UInt32} {base mid last : Nat} {x y : Eval σ Value}
    {J : Jump → World σ → Machine σ → Prop} (hjumpless : Jumpless x)
    (hx : Computes setting program rounds (some (site.loopTarget stack start.toNat done.toNat))
      (site.inLoop stack start.toNat done.toNat) (site.inLoop stack start.toNat done.toNat) base mid
      stack x)
    (hif : program.At mid (.jumpIfFalse done))
    (hy : Computes setting program rounds (some (site.loopTarget stack start.toNat done.toNat))
      (site.inLoop stack start.toNat done.toNat) (site.inLoop stack start.toNat done.toNat)
      (mid + 1) last stack y)
    (hpop : program.At last .pop) (hjump : program.At (last + 1) (.jump start)) {w : World σ}
    {m : Machine σ} (h : Stands (site.inLoop stack start.toNat done.toNat) base stack w m) :
    Answers setting program rounds
      (fun goesOn => Stands (site.inLoop stack start.toNat done.toNat)
        (if goesOn then start.toNat else done.toNat) stack) J m
      ((goesOn (some x) >>= fun flag => if flag then Eval.loopBody y else pure false) w) := by
  rw [goesOn, truth, bind_assoc]
  refine ((hx w m h).jumpless hjumpless).bind fun v w₁ m₁ h₁ => ?_
  refine test hfree (fun found => (plain_needsBoolean found).2) h₁ hif (fun m₂ h₂ => ?_)
    fun m₂ h₂ => .ok h₂
  exact loopBody hfree hy hpop hjump h₂

/-- A test with jumps is computed in the body: where it is false, it breaks the loop. -/
theorem computes_enclosed {start done : UInt32} {base mid last depth : Nat} {test body : Expr}
    (hdepth : depth + 2 ≤ setting.limits.maxExpressionDepth.toNat)
    (hx : Computes setting program rounds (some (site.loopTarget stack start.toNat done.toNat))
      (site.inLoop stack start.toNat done.toNat) (site.inLoop stack start.toNat done.toNat) base mid
      stack (eval setting allowance (depth + 1) test))
    (hif : program.At mid (.jumpIfFalse done))
    (hy : Computes setting program rounds (some (site.loopTarget stack start.toNat done.toNat))
      (site.inLoop stack start.toNat done.toNat) (site.inLoop stack start.toNat done.toNat)
      (mid + 1) last stack (eval setting allowance (depth + 1) body)) :
    Computes setting program rounds (some (site.loopTarget stack start.toNat done.toNat))
      (site.inLoop stack start.toNat done.toNat) (site.inLoop stack start.toNat done.toNat) base
      last stack (eval setting allowance depth (.cond test body (some (.jump .break_)))) := by
  rw [eval_eq]
  refine enter hfree (by omega) fun w m h => ?_
  simp only [evalNode, Eval.choice, truth, bind_assoc, Option.map_some, Option.getD_some]
  refine (hx w m h).bind fun v w₁ m₁ h₁ => ?_
  refine Computes.test hfree (fun found => (plain_needsBoolean found).1) h₁ hif (fun m₂ h₂ => ?_)
    fun m₂ h₂ => ?_
  · exact hy w₁ m₂ h₂
  · have hbreak : eval setting allowance (depth + 1) (.jump .break_) w₁ =
        .error (.jump .break_) (w₁.withSteps (w₁.ledger.steps + 1)) := by
      rw [eval_eq, bind_of_ok (enter_of_within (Limits.within_of_unlimited hfree _) hdepth)]
      rfl
    simp only [Bool.false_eq_true, if_false, hbreak]
    exact ⟨0, m₂, .refl m₂, (h₂.withSteps _).jumped⟩

theorem compiles_loop {test : Option Expr} {body : Expr}
    (htest : ∀ e ∈ test, Compiles setting program allowance inLoop e)
    (hbody : Compiles setting program allowance true body) :
    Compiles setting program allowance inLoop (.loop test body) := by
  refine .of_node hfree fun target site stack depth henclosed hdepth base last S' hcode => ?_
  cases hcode with
  | @loop _ _ _ _ mid last _ _ start done _ henter htick hcodeTest hcodeBody hpop hjump hexit hnull
      hpool hstart hdone =>
    have hy (above : List Value) (d : Nat) := hbody _ _ _ d
      (.ofLoop site (above ++ stack) start.toNat done.toNat)
    cases hcodeTest with
    | none =>
      simp only [Expr.encloseTests, Expr.children, Option.toList_none, List.nil_append,
        List.forall_mem_singleton] at hdepth ⊢
      refine ⟨(hy [] _ hdepth _ _ _ hcodeBody).1, fun above => ?_⟩
      exact loop hfree henter htick hexit hnull hpool hstart hdone fun w m h =>
        loopBody hfree ((hy above _ hdepth _ _ _ hcodeBody).2 []) hpop hjump h
    | @some _ _ _ mid e _ hcodeTest hif =>
      have hx (above : List Value) (d : Nat) := htest e rfl _ _ _ d
        (.ofLoop site (above ++ stack) start.toNat done.toNat)
      cases hjumps : e.hasJump with
      | false =>
        simp only [Expr.encloseTests, hjumps, Bool.false_eq_true, if_false, Expr.children,
          Option.toList_some, List.cons_append, List.nil_append, List.forall_mem_cons] at hdepth ⊢
        have hscopes := (hx [] _ hdepth.1 _ _ _ hcodeTest).1
        subst hscopes
        refine ⟨(hy [] _ hdepth.2.1 _ _ _ hcodeBody).1, fun above => ?_⟩
        have hjumpless : Jumpless (eval setting allowance (depth + 1) e.encloseTests) := by
          rw [Expr.encloseTests_eq_self_of_hasJump hjumps]
          exact eval_jumpless setting allowance (depth + 1) hjumps
        exact loop hfree henter htick hexit hnull hpool hstart hdone fun w m h =>
          computes_round hfree hjumpless ((hx above _ hdepth.1 _ _ _ hcodeTest).2 []) hif
            ((hy above _ hdepth.2.1 _ _ _ hcodeBody).2 []) hpop hjump h
      | true =>
        simp only [Expr.encloseTests, hjumps, if_true, Expr.children, Option.toList_none,
          List.nil_append, List.forall_mem_singleton] at hdepth ⊢
        have hdepth₁ := Expr.depth_part hdepth List.mem_cons_self
        have hdepth₂ := Expr.depth_part hdepth (List.mem_cons_of_mem _ List.mem_cons_self)
        have hpos := e.encloseTests.depth_pos
        have hscopes := (hx [] _ hdepth₁ _ _ _ hcodeTest).1
        subst hscopes
        refine ⟨(hy [] _ hdepth₂ _ _ _ hcodeBody).1, fun above => ?_⟩
        have hround := computes_enclosed hfree (by omega)
          ((hx above _ hdepth₁ _ _ _ hcodeTest).2 []) hif
          ((hy above _ hdepth₂ _ _ _ hcodeBody).2 [])
        exact loop hfree henter htick hexit hnull hpool hstart hdone fun w m h =>
          loopBody hfree hround hpop hjump h

/-- The code of an expression computes it, wherever declarations and jumps may stand in it. -/
theorem compiles {e : Expr} (hplaced : Placed inLoop e) :
    Compiles setting program allowance inLoop e := by
  induction hplaced with
  | binary _ _ ihLeft ihRight => exact compiles_binary hfree ihLeft ihRight
  | block hitems ih =>
    exact compiles_block hfree (fun item hitem _ _ _ _ => CodeOf.scopes_eq (hitems item hitem)) ih
  | cond _ _ _ ihTest ihYes ihNo => exact compiles_cond hfree ihTest ihYes ihNo
  | loop _ _ ihTest ihBody => exact compiles_loop hfree ihTest ihBody
  | literal =>
    refine .of_node hfree fun target site stack depth henclosed hdepth base last S' hcode => ?_
    simp only [Expr.encloseTests]
    cases hcode with
    | literal hop hpool => exact ⟨rfl, fun above => literal hfree hop hpool⟩
  | ref =>
    refine .of_node hfree fun target site stack depth henclosed hdepth base last S' hcode => ?_
    simp only [Expr.encloseTests]
    cases hcode with
    | ref hloads hop => exact ⟨rfl, fun above => ref hfree hloads hop⟩
  | jump =>
    refine .of_node hfree fun target site stack depth henclosed hdepth base last S' hcode => ?_
    simp only [Expr.encloseTests]
    obtain ⟨t, ht⟩ := henclosed.exists_target rfl
    cases hcode with
    | jump hop =>
      exact ⟨rfl, fun above => jump hfree ht ((henclosed.encloses t ht).above above) hop⟩
  | unary _ ih =>
    refine .of_node hfree fun target site stack depth henclosed hdepth base last S' hcode => ?_
    simp only [Expr.encloseTests, Expr.children, List.forall_mem_singleton] at hdepth ⊢
    cases hcode with
    | unary hcodeOperand hop =>
      obtain ⟨rfl, hx⟩ := ih target site stack (depth + 1) henclosed hdepth _ _ _ hcodeOperand
      exact ⟨rfl, fun above => operate₁ hfree (hx above) hop fun _ _ => rfl⟩
  | property _ ih =>
    refine .of_node hfree fun target site stack depth henclosed hdepth base last S' hcode => ?_
    simp only [Expr.encloseTests, Expr.children, List.forall_mem_singleton] at hdepth ⊢
    cases hcode with
    | property hcodeTarget hpool hop =>
      obtain ⟨rfl, hx⟩ := ih target site stack (depth + 1) henclosed hdepth _ _ _ hcodeTarget
      refine ⟨rfl, fun above => operate₁ hfree (hx above) hop fun a m => ?_⟩
      rw [Machine.perform, Program.nameConstant_eq hpool]
      rfl
  | index _ _ ihTarget ihPosition =>
    refine .of_node hfree fun target site stack depth henclosed hdepth base last S' hcode => ?_
    simp only [Expr.encloseTests, Expr.children, List.forall_mem_cons] at hdepth ⊢
    cases hcode with
    | index hcodeTarget hcodePosition hop =>
      obtain ⟨rfl, hx⟩ := ihTarget target site stack (depth + 1) henclosed hdepth.1 _ _ _
        hcodeTarget
      obtain ⟨rfl, hy⟩ := ihPosition target site stack (depth + 1) henclosed hdepth.2.1 _ _ _
        hcodePosition
      exact ⟨rfl, fun above => operate₂ hfree (hx above) (fun a => hy (a :: above)) hop
        fun _ _ _ => rfl⟩
  | assign _ ih =>
    refine .of_node hfree fun target site stack depth henclosed hdepth base last S' hcode => ?_
    simp only [Expr.encloseTests, Expr.children, List.forall_mem_singleton] at hdepth ⊢
    cases hcode with
    | assign hcodeValue hassigns hop =>
      obtain ⟨rfl, hx⟩ := ih target site stack (depth + 1) henclosed hdepth _ _ _ hcodeValue
      exact ⟨rfl, fun above => assign hfree (hx above) hassigns hop⟩
  | @call _ _ args hargs ih =>
    refine .of_node hfree fun target site stack depth henclosed hdepth base last S' hcode => ?_
    simp only [Expr.encloseTests, Expr.encloseTestsAll_eq, Expr.children,
      List.forall_mem_map] at hdepth ⊢
    have hparts (e : Expr) (he : e ∈ args) :=
      ih e he target site stack (depth + 1) henclosed (hdepth e he)
    cases hcode with
    | call hcodeArgs hpool hargc hop =>
      refine ⟨hcodeArgs.scopes_eq fun e he _ _ _ _ => CodeOf.scopes_eq (hargs e he),
        fun above => ?_⟩
      simp only [evalNode, List.map_map]
      exact call hfree (fun w m h => collectAll hparts hcodeArgs hargc above h) hpool hop
  | @array _ items hitems ih =>
    refine .of_node hfree fun target site stack depth henclosed hdepth base last S' hcode => ?_
    simp only [Expr.encloseTests, Expr.encloseTestsAll_eq, Expr.children,
      List.forall_mem_map] at hdepth ⊢
    have hparts (e : Expr) (he : e ∈ items) :=
      ih e he target site stack (depth + 1) henclosed (hdepth e he)
    cases hcode with
    | array hcodeItems hcount hop =>
      refine ⟨hcodeItems.scopes_eq fun e he _ _ _ _ => CodeOf.scopes_eq (hitems e he),
        fun above => ?_⟩
      simp only [evalNode, List.map_map]
      exact array hfree (fun w m h => collectAll hparts hcodeItems hcount above h) hop
  | @object _ entries hentries ih =>
    refine .of_node hfree fun target site stack depth henclosed hdepth base last S' hcode => ?_
    simp only [Expr.encloseTests, Expr.encloseTestsEntries_eq, Expr.children, List.map_map,
      List.forall_mem_map] at hdepth ⊢
    have hparts (entry : String × Expr) (hentry : entry ∈ entries) :=
      ih entry hentry target site stack (depth + 1) henclosed (hdepth entry hentry)
    cases hcode with
    | object hcodeEntries hcount hop =>
      refine ⟨hcodeEntries.scopes_eq fun entry he _ _ _ _ => CodeOf.scopes_eq (hentries entry he),
        fun above => ?_⟩
      simp only [evalNode, List.map_map]
      exact object hfree (fun w m h => gatherAll hfree
        (fun e => eval setting allowance (depth + 1) e.encloseTests) hparts hcodeEntries hcount
        above h) hop

end Constructs

end Covenant
