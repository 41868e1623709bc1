import Covenant.Proofs.Correspondence
import Covenant.Proofs.EnclosedJumps

/-!
# The functions that code calls

Every call among the instructions of a program was made for a call of the script: folding makes no
new ones, and the code of every other construct has none. The instruction names its function by the
index of a constant, which is the name in the script.

## Main definitions

* `Expr.CallsOnly`, `Script.CallsOnly` : the functions called in a tree have a property.
* `Program.CallsOnly` : the functions called by the instructions of a range have a property.

## Main results

* `Expr.CallsOnly.fold` : folding makes no new calls.
* `CodeOf.callsOnly`, `CodeOfStatements.callsOnly` : code calls what the tree calls.
* `checkCall_of_compileScript` : the functions called in a compiled script were checked.
-/

namespace Covenant

variable {ι : Type} {P : String → Prop}

/-! ### Calls in trees -/

/-- All functions called inside the expression have names with a property. -/
def Expr.CallsOnly (P : String → Prop) (e : Expr) : Prop :=
  e.Everywhere fun node => ∀ name args, node = .call name args → P name

/-- All functions called in the script have names with a property. -/
def Script.CallsOnly (P : String → Prop) (script : Script) : Prop :=
  ∀ s ∈ script.statements, s.expression.CallsOnly P

namespace Expr

/-- A property of nodes that folding the parts of a node keeps, and that literals have, holds
everywhere in what is folded. -/
theorem Everywhere.fold {P : Expr → Prop} {e : Expr} (h : e.Everywhere P)
    (hliteral : ∀ v, P (literal v)) (hparts : ∀ e, P e → P (e.mapParts Expr.fold)) :
    e.fold.Everywhere P := by
  induction e using childrenInd with
  | node e ih =>
    obtain ⟨hself, hchildren⟩ := everywhere_iff.mp h
    have hmapped : ∀ part ∈ (e.mapParts Expr.fold).children, part.Everywhere P := by
      rw [children_mapParts, List.forall_mem_map]
      exact fun part hpart => ih part hpart (hchildren part hpart)
    rw [fold_eq]
    rcases (e.mapParts Expr.fold).reduce_cases with heq | ⟨value, heq⟩ | hpart
    · rw [heq]
      exact everywhere_iff.mpr ⟨hparts e hself, hmapped⟩
    · rw [heq]
      exact everywhere_iff.mpr ⟨hliteral value, List.forall_mem_nil _⟩
    · exact hmapped _ hpart

/-- Folding makes no new calls. -/
theorem CallsOnly.fold {e : Expr} (h : e.CallsOnly P) : e.fold.CallsOnly P := by
  refine Everywhere.fold h (fun _ _ _ heq => nomatch heq) fun e he name args heq => ?_
  cases e with
  | call =>
    cases heq
    exact he _ _ rfl
  | _ => cases heq

end Expr

theorem Script.CallsOnly.fold {script : Script} (h : script.CallsOnly P) :
    script.fold.CallsOnly P :=
  List.forall_mem_map.mpr fun s hs => (h s hs).fold

/-! ### Calls in code -/

/-- Whether the instruction calls a function of the host. -/
def Op.isCall : Op → Bool
  | .call _ _ => true
  | _ => false

namespace Program

variable {program : Program} {first mid last offset : Nat}

/-- All functions called by the instructions between two offsets have names with a property. -/
def CallsOnly (program : Program) (P : String → Prop) (first last : Nat) : Prop :=
  ∀ offset i argc, first ≤ offset → offset < last → program.At offset (.call i argc) →
    ∃ name, program.Pools i (.string name) ∧ P name

namespace CallsOnly

theorem imp {Q : String → Prop} (h : program.CallsOnly P first last)
    (himp : ∀ name, P name → Q name) : program.CallsOnly Q first last := by
  intro offset i argc hfirst hlast hop
  obtain ⟨name, hpool, hname⟩ := h offset i argc hfirst hlast hop
  exact ⟨name, hpool, himp name hname⟩

theorem nil : program.CallsOnly P first first :=
  fun _ _ _ hfirst hlast => absurd hfirst (Nat.not_le.mpr hlast)

theorem append (h : program.CallsOnly P first mid) (h' : program.CallsOnly P mid last) :
    program.CallsOnly P first last := by
  intro offset i argc hfirst hlast hop
  rcases Nat.lt_or_ge offset mid with hlt | hge
  · exact h offset i argc hfirst hlt hop
  · exact h' offset i argc hge hlast hop

/-- One instruction, which is no call. -/
theorem other {op : Op} (hop : program.At offset op) (hother : op.isCall = false) :
    program.CallsOnly P offset (offset + 1) := by
  intro offset' i argc hfirst hlast hcall
  obtain rfl : offset' = offset := by omega
  obtain rfl := Option.some.inj (hop.symm.trans hcall)
  cases hother

/-- One call. -/
theorem call {i : UInt32} {argc : UInt16} {name : String} (hop : program.At offset (.call i argc))
    (hpool : program.Pools i (.string name)) (hname : P name) :
    program.CallsOnly P offset (offset + 1) := by
  intro offset' i' argc' hfirst hlast hcall
  obtain rfl : offset' = offset := by omega
  cases Option.some.inj (hop.symm.trans hcall)
  exact ⟨name, hpool, hname⟩

end CallsOnly

end Program

section Code

variable {program : Program} {S S' : Scopes UInt16} {base last : Nat}

theorem Loads.isCall_eq_false {name : String} {op : Op} (h : Loads program S name op) :
    op.isCall = false := by
  cases h <;> rfl

theorem Assigns.isCall_eq_false {name : String} {op : Op} (h : Assigns program S name op) :
    op.isCall = false := by
  cases h <;> rfl

theorem Declares.isCall_eq_false {name : String} {op : Op} (h : Declares program S name op S') :
    op.isCall = false := by
  cases h <;> rfl

/-- The code of an expression calls only functions with the property. -/
def CodeCalls (program : Program) (P : String → Prop) (e : Expr) : Prop :=
  ∀ {S base last S'}, CodeOf program S base e last S' → program.CallsOnly P base last

theorem CodeOfAll.callsOnly {es : List Expr} (hes : ∀ e ∈ es, CodeCalls program P e)
    (h : CodeOfAll program S base es last S') : program.CallsOnly P base last := by
  induction es generalizing S base with
  | nil =>
    cases h
    exact .nil
  | cons e rest ih =>
    rw [List.forall_mem_cons] at hes
    cases h with
    | cons hhead htail => exact .append (hes.1 hhead) (ih hes.2 htail)

theorem CodeOfRest.callsOnly {es : List Expr} (hes : ∀ e ∈ es, CodeCalls program P e)
    (h : CodeOfRest program S base es last S') : program.CallsOnly P base last := by
  induction es generalizing S base with
  | nil =>
    cases h
    exact .nil
  | cons e rest ih =>
    rw [List.forall_mem_cons] at hes
    cases h with
    | cons hpop hhead htail =>
      exact .append (.other hpop rfl) (.append (hes.1 hhead) (ih hes.2 htail))

theorem CodeOfEntries.callsOnly {entries : List (String × Expr)}
    (hes : ∀ entry ∈ entries, CodeCalls program P entry.2)
    (h : CodeOfEntries program S base entries last S') : program.CallsOnly P base last := by
  induction entries generalizing S base with
  | nil =>
    cases h
    exact .nil
  | cons entry rest ih =>
    rw [List.forall_mem_cons] at hes
    cases h with
    | cons hkey _ hhead htail =>
      exact .append (.other hkey rfl) (.append (hes.1 hhead) (ih hes.2 htail))

theorem CodeOfElse.callsOnly {no : Option Expr} (hno : ∀ e ∈ no, CodeCalls program P e)
    (h : CodeOfElse program S base no last S') : program.CallsOnly P base last := by
  cases h with
  | none hnull _ => exact .other hnull rfl
  | some hcode => exact hno _ rfl hcode

theorem CodeOfTest.callsOnly {test : Option Expr} {done : UInt32}
    (htest : ∀ e ∈ test, CodeCalls program P e)
    (h : CodeOfTest program S base test done last S') : program.CallsOnly P base last := by
  cases h with
  | none => exact .nil
  | some hcode hjump => exact .append (htest _ rfl hcode) (.other hjump rfl)

/-- Code calls what the expression calls. -/
theorem CodeOf.callsOnly {e : Expr} (h : e.CallsOnly P) : CodeCalls program P e := by
  induction e using Expr.childrenInd with
  | node e ih =>
    obtain ⟨hself, hparts⟩ := Expr.everywhere_iff.mp h
    replace hparts : ∀ part ∈ e.children, CodeCalls program P part :=
      fun part hpart => ih part hpart (hparts part hpart)
    intro S base last S' hcode
    cases hcode with
    | literal hop _ => exact .other hop rfl
    | ref hloads hop => exact .other hop hloads.isCall_eq_false
    | jump hop =>
      rename_i j
      exact .other hop (by cases j <;> rfl)
    | unary hoperand hop | property hoperand _ hop =>
      exact .append (hparts _ List.mem_cons_self hoperand) (.other hop rfl)
    | assign hvalue hassigns hop =>
      exact .append (hparts _ List.mem_cons_self hvalue) (.other hop hassigns.isCall_eq_false)
    | declare hvalue hdeclares hop =>
      exact .append (hparts _ List.mem_cons_self hvalue) (.other hop hdeclares.isCall_eq_false)
    | binary _ hleft hright hop | index hleft hright hop =>
      simp only [Expr.children, List.forall_mem_cons] at hparts
      exact .append (hparts.1 hleft) (.append (hparts.2.1 hright) (.other hop rfl))
    | logical _ hleft hshort hright hrequire _ =>
      simp only [Expr.children, List.forall_mem_cons] at hparts
      exact .append (hparts.1 hleft) (.append (.other hshort rfl)
        (.append (hparts.2.1 hright) (.other hrequire rfl)))
    | call hargs hpool _ hop =>
      exact .append (hargs.callsOnly hparts) (.call hop hpool (hself _ _ rfl))
    | array hitems _ hop => exact .append (hitems.callsOnly hparts) (.other hop rfl)
    | object hentries _ hop =>
      have hentriesParts := List.forall_mem_map.mp hparts
      exact .append (hentries.callsOnly hentriesParts) (.other hop rfl)
    | emptyBlock henter hnull _ hexit =>
      exact .append (.other henter rfl) (.append (.other hnull rfl) (.other hexit rfl))
    | block henter hhead htail hexit _ =>
      simp only [Expr.children, List.forall_mem_cons] at hparts
      exact .append (.other henter rfl) (.append (hparts.1 hhead)
        (.append (htail.callsOnly hparts.2) (.other hexit rfl)))
    | cond htest hif hyes hjump hno _ _ =>
      simp only [Expr.children, List.forall_mem_cons, Option.mem_toList] at hparts
      exact .append (hparts.1 htest) (.append (.other hif rfl) (.append (hparts.2.1 hyes)
        (.append (.other hjump rfl) (hno.callsOnly hparts.2.2))))
    | loop henter htick htest hbody hpop hjump hexit hnull _ _ _ =>
      simp only [Expr.children, List.forall_mem_append, List.forall_mem_cons,
        Option.mem_toList] at hparts
      exact .append (.other henter rfl) (.append (.other htick rfl)
        (.append (htest.callsOnly hparts.1) (.append (hparts.2.1 hbody)
          (.append (.other hpop rfl) (.append (.other hjump rfl)
            (.append (.other hexit rfl) (.other hnull rfl)))))))

/-- The code of statements calls what the statements call. -/
theorem CodeOfStatements.callsOnly {es : List Expr} (h : CodeOfStatements program es last)
    (hes : ∀ e ∈ es, e.CallsOnly P) : program.CallsOnly P 0 last := by
  cases h with
  | none hnull _ => exact .other hnull rfl
  | some hhead htail =>
    rw [List.forall_mem_cons] at hes
    exact .append (CodeOf.callsOnly hes.1 hhead)
      (htail.callsOnly fun e he => CodeOf.callsOnly (hes.2 e he))

end Code

/-! ### Compiled scripts -/

/-- The functions called in a compiled script were checked. -/
theorem checkCall_of_compileScript {level : UInt8} {registry : Registry ι} {script : Script}
    {declared : Permissions} {program : Program}
    (h : compileScript level registry script declared = .ok program) :
    script.CallsOnly fun name => checkCall registry declared name = .ok () := by
  have hall (calls : List (String × List Expr))
      (h : calls.forM (fun call => checkCall registry declared call.1) = .ok ()) :
      ∀ call ∈ calls, checkCall registry declared call.1 = .ok () := by
    induction calls with
    | nil => exact List.forall_mem_nil _
    | cons call calls ih =>
      obtain ⟨_, hcall, hrest⟩ := bind_eq_ok_iff.mp h
      exact List.forall_mem_cons.mpr ⟨hcall, ih hrest⟩
  obtain ⟨-, hchecked, -⟩ := compileScript_eq_ok_iff.mp h
  intro s hs node hnode name args hcall
  refine hall _ hchecked (name, args) (List.mem_flatMap.mpr ⟨s, hs, ?_⟩)
  exact List.mem_filterMap.mpr ⟨node, hnode, by rw [hcall]⟩

/-- A compiled program calls only functions that were checked. -/
theorem callsOnly_of_compileScript {level : UInt8} {registry : Registry ι} {script : Script}
    {declared : Permissions} {program : Program}
    (h : compileScript level registry script declared = .ok program) :
    program.CallsOnly (fun name => checkCall registry declared name = .ok ()) 0
      program.code.size := by
  have hscript := checkCall_of_compileScript h
  have hsource : (if level = 0 then script else script.fold).CallsOnly
      fun name => checkCall registry declared name = .ok () := by
    split_ifs
    · exact hscript
    · exact hscript.fold
  exact (compileScript_eq_ok h).2.callsOnly (List.forall_mem_map.mpr hsource)

end Covenant
