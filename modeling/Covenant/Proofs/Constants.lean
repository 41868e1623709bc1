import Covenant.Program.Fingerprint
import Covenant.Proofs.Correspondence
import Covenant.Proofs.ScriptText

/-!
# The constants of a program

The pool of a program has the literals of the script it was made from, and besides them only names
and null. So the constants have a property that strings and null have exactly if the literals have
it. Literals that a text writes are finite, and those that folding puts in their place are not
always: an operation on finite numbers may have no finite result.

## Main definitions

* `Emit.Keeps` : an emission adds only values with a property to the pool.

## Main results

* `CodeOf.literals` : the literals of an expression are constants of the program with its code.
* `Emit.keeps_emit` : the emission of an expression adds its literals, names and null.
* `constants_of_compileScript` : the constants have a property exactly if the literals have it.
* `compile_constants_finite_iff` : when the constants of a program are finite.
-/

namespace Covenant

variable {P : Value → Prop}

/-! ### Literals are constants -/

section Code

variable {program : Program} {S S' : Scopes UInt16} {base last : Nat} {part : Expr}

/-- The code of an expression stands somewhere in the program. -/
def HasCodeOf (program : Program) (e : Expr) : Prop :=
  ∃ S base last S', CodeOf program S base e last S'

theorem CodeOfAll.hasCodeOf {es : List Expr} (h : CodeOfAll program S base es last S')
    (hpart : part ∈ es) : HasCodeOf program part := by
  induction es generalizing S base with
  | nil => cases hpart
  | cons e rest ih =>
    cases h with
    | cons hhead htail =>
      rcases List.mem_cons.mp hpart with rfl | hrest
      · exact ⟨_, _, _, _, hhead⟩
      · exact ih htail hrest

theorem CodeOfRest.hasCodeOf {es : List Expr} (h : CodeOfRest program S base es last S')
    (hpart : part ∈ es) : HasCodeOf program part := by
  induction es generalizing S base with
  | nil => cases hpart
  | cons e rest ih =>
    cases h with
    | cons _ hhead htail =>
      rcases List.mem_cons.mp hpart with rfl | hrest
      · exact ⟨_, _, _, _, hhead⟩
      · exact ih htail hrest

theorem CodeOfEntries.hasCodeOf {entries : List (String × Expr)}
    (h : CodeOfEntries program S base entries last S') (hpart : part ∈ entries.map Prod.snd) :
    HasCodeOf program part := by
  induction entries generalizing S base with
  | nil => cases hpart
  | cons entry rest ih =>
    cases h with
    | cons _ _ hhead htail =>
      rcases List.mem_cons.mp hpart with rfl | hrest
      · exact ⟨_, _, _, _, hhead⟩
      · exact ih htail hrest

theorem CodeOfElse.hasCodeOf {no : Option Expr} (h : CodeOfElse program S base no last S')
    (hpart : part ∈ no) : HasCodeOf program part := by
  cases h with
  | none => cases hpart
  | some hcode =>
    cases hpart
    exact ⟨_, _, _, _, hcode⟩

theorem CodeOfTest.hasCodeOf {test : Option Expr} {done : UInt32}
    (h : CodeOfTest program S base test done last S') (hpart : part ∈ test) :
    HasCodeOf program part := by
  cases h with
  | none => cases hpart
  | some hcode _ =>
    cases hpart
    exact ⟨_, _, _, _, hcode⟩

/-- With an expression, each of its parts has its code in the program. -/
theorem CodeOf.hasCodeOf {e : Expr} (h : CodeOf program S base e last S')
    (hpart : part ∈ e.children) : HasCodeOf program part := by
  cases h with
  | literal | ref | jump | emptyBlock => cases hpart
  | unary hcode | property hcode | assign hcode | declare hcode =>
    cases List.mem_singleton.mp hpart
    exact ⟨_, _, _, _, hcode⟩
  | binary _ hleft hright | logical _ hleft _ hright | index hleft hright =>
    simp only [Expr.children, List.mem_cons, List.not_mem_nil, or_false] at hpart
    rcases hpart with rfl | rfl
    · exact ⟨_, _, _, _, hleft⟩
    · exact ⟨_, _, _, _, hright⟩
  | call hargs => exact hargs.hasCodeOf hpart
  | array hitems => exact hitems.hasCodeOf hpart
  | object hentries => exact hentries.hasCodeOf hpart
  | block _ hhead htail =>
    rcases List.mem_cons.mp hpart with rfl | hrest
    · exact ⟨_, _, _, _, hhead⟩
    · exact htail.hasCodeOf hrest
  | cond htest _ hyes _ hno =>
    simp only [Expr.children, List.mem_cons, Option.mem_toList] at hpart
    rcases hpart with rfl | rfl | hpart
    · exact ⟨_, _, _, _, htest⟩
    · exact ⟨_, _, _, _, hyes⟩
    · exact hno.hasCodeOf hpart
  | loop _ _ htest hbody =>
    simp only [Expr.children, List.mem_append, Option.mem_toList, List.mem_singleton] at hpart
    rcases hpart with hpart | rfl
    · exact htest.hasCodeOf hpart
    · exact ⟨_, _, _, _, hbody⟩

/-- The literals of an expression are constants of a program that has its code. -/
theorem HasCodeOf.literals {e : Expr} (h : HasCodeOf program e) :
    e.Literals (· ∈ program.constants) := by
  induction e using Expr.childrenInd with
  | node e ih =>
    obtain ⟨S, base, last, S', hcode⟩ := h
    refine .node ?_ fun part hpart => ih part hpart (hcode.hasCodeOf hpart)
    rintro v rfl
    cases hcode with
    | literal _ hpool => exact Array.mem_of_getElem? hpool

theorem CodeOfStatements.hasCodeOf {es : List Expr} (h : CodeOfStatements program es last)
    (hpart : part ∈ es) : HasCodeOf program part := by
  cases h with
  | none => cases hpart
  | some hhead htail =>
    rcases List.mem_cons.mp hpart with rfl | hrest
    · exact ⟨_, _, _, _, hhead⟩
    · exact htail.hasCodeOf hrest

end Code

/-! ### What emission adds -/

namespace Emit

variable {α β : Type}

/-- Whatever an emission adds to the pool has a property. -/
def Keeps (P : Value → Prop) (x : EmitM α) : Prop :=
  ∀ L a L', x L = .ok (a, L') → (∀ v ∈ L.pool, P v) → ∀ v ∈ L'.pool, P v

namespace Keeps

theorem pure (a : α) : Keeps P (pure a : EmitM α) := by
  intro L a L' h hpool
  cases h
  exact hpool

theorem bind {x : EmitM α} {f : α → EmitM β} (hx : Keeps P x) (hf : ∀ a, Keeps P (f a)) :
    Keeps P (x >>= f) := by
  intro L b L' h hpool
  obtain ⟨a, L₁, ha, hb⟩ := bind_eq_ok.mp h
  exact hf a L₁ b L' hb (hx L a L₁ ha hpool)

/-- What changes no more than the scopes keeps the pool. -/
theorem of_pool_eq {x : EmitM α} (h : ∀ L a L', x L = .ok (a, L') → L'.pool = L.pool) :
    Keeps P x := by
  intro L a L' hx hpool
  rwa [h L a L' hx]

theorem get : Keeps P (MonadState.get : EmitM Layout) :=
  of_pool_eq fun L a L' h => by cases h; rfl

theorem target (n : Nat) : Keeps P (target n) :=
  of_pool_eq fun _ _ _ h => congrArg Layout.pool (target_eq_ok h).2

theorem count (n : Nat) (fault : CompileFault) : Keeps P (count n fault) :=
  of_pool_eq fun _ _ _ h => congrArg Layout.pool (count_eq_ok h).2

theorem shortCount (n : Nat) (fault : CompileFault) : Keeps P (shortCount n fault) :=
  of_pool_eq fun _ _ _ h => congrArg Layout.pool (shortCount_eq_ok h).2

theorem resolve (name : String) : Keeps P (resolve name) :=
  of_pool_eq fun _ _ _ h => congrArg Layout.pool (resolve_eq_ok h).1

theorem modifyScopes (f : Scopes UInt16 → Scopes UInt16) : Keeps P (modifyScopes f) :=
  of_pool_eq fun L a L' h => by cases h; rfl

theorem slotFor (name : String) : Keeps P (slotFor name) := by
  refine .of_pool_eq fun L slot L' h => ?_
  rw [Emit.slotFor, get_bind_eq_ok] at h
  cases hbound : L.scopes.innermost[name]? with
  | some slot' =>
    rw [hbound] at h
    cases h
    rfl
  | none =>
    rw [hbound] at h
    obtain ⟨slot', L₁, hcount, h⟩ := bind_eq_ok.mp h
    obtain ⟨-, rfl⟩ := shortCount_eq_ok hcount
    obtain ⟨_, L₂, hset, hpure⟩ := bind_eq_ok.mp h
    cases hset
    cases hpure
    rfl

theorem pooled {value : Value} (hvalue : P value) : Keeps P (pooled value) := by
  intro L i L' h hpool
  rw [Emit.pooled, get_bind_eq_ok] at h
  cases hfind : L.pool.findIdx? (·.identical value) with
  | some k =>
    rw [hfind] at h
    obtain ⟨-, rfl⟩ := count_eq_ok h
    exact hpool
  | none =>
    rw [hfind] at h
    obtain ⟨_, L₁, hset, hcount⟩ := bind_eq_ok.mp h
    cases hset
    obtain ⟨-, rfl⟩ := count_eq_ok hcount
    intro v hv
    rcases Array.mem_push.mp hv with hv | rfl
    · exact hpool v hv
    · exact hvalue

end Keeps

section Emission

variable (hnull : P .null) (hstring : ∀ s, P (.string s))

include hstring

theorem keeps_emitRef (name : String) : Keeps P (emitRef name) := by
  refine (Keeps.resolve name).bind fun found => ?_
  cases found with
  | some place => exact .pure _
  | none => exact (Keeps.pooled (hstring name)).bind fun _ => .pure _

theorem keeps_emitAssign (name : String) : Keeps P (emitAssign name) := by
  refine (Keeps.resolve name).bind fun found => ?_
  cases found with
  | some place => exact .pure _
  | none =>
    refine (Keeps.pooled (hstring name)).bind fun index => Keeps.get.bind fun layout => ?_
    split <;> exact .pure _

theorem keeps_emitDeclare (name : String) : Keeps P (emitDeclare name) := by
  refine Keeps.get.bind fun layout => ?_
  split
  · exact (Keeps.pooled (hstring name)).bind fun _ => .pure _
  · exact (Keeps.slotFor name).bind fun _ => .pure _

omit hstring

theorem keeps_emitAll {es : List Expr} (hes : ∀ e ∈ es, ∀ base, Keeps P (emit base e))
    (base : Nat) (code : Array Op) : Keeps P (emitAll base code es) := by
  induction es generalizing code with
  | nil => exact .pure _
  | cons e rest ih =>
    rw [List.forall_mem_cons] at hes
    exact (hes.1 _).bind fun _ => ih hes.2 _

theorem keeps_emitItems {es : List Expr} (hes : ∀ e ∈ es, ∀ base, Keeps P (emit base e))
    (base : Nat) (code : Array Op) : Keeps P (emitItems base code es) := by
  induction es generalizing code with
  | nil => exact .pure _
  | cons e rest ih =>
    rw [List.forall_mem_cons] at hes
    exact (hes.1 _).bind fun _ => ih hes.2 _

include hstring

theorem keeps_emitEntries {entries : List (String × Expr)}
    (hes : ∀ e ∈ entries.map Prod.snd, ∀ base, Keeps P (emit base e)) (base : Nat)
    (code : Array Op) : Keeps P (emitEntries base code entries) := by
  induction entries generalizing code with
  | nil => exact .pure _
  | cons entry rest ih =>
    rw [List.map_cons, List.forall_mem_cons] at hes
    exact (Keeps.pooled (hstring entry.1)).bind fun _ => (hes.1 _).bind fun _ => ih hes.2 _

omit hstring
include hnull

theorem keeps_block {items : List Expr} (hitems : ∀ e ∈ items, ∀ base, Keeps P (emit base e))
    (base : Nat) : Keeps P (emit base (.block items)) := by
  have hclose (code : Array Op) : Keeps P (do
      let slots ← shortCount (← get).scopes.localCount .tooManyBindings
      modifyScopes Scopes.pop
      return (#[Op.enterScope slots] ++ code).push .exitScope) :=
    Keeps.get.bind fun _ => (Keeps.shortCount _ _).bind fun _ =>
      (Keeps.modifyScopes _).bind fun _ => .pure _
  rw [emit]
  refine (Keeps.modifyScopes _).bind fun _ => ?_
  cases items with
  | nil => exact (Keeps.pooled hnull).bind fun _ => hclose _
  | cons e rest =>
    rw [List.forall_mem_cons] at hitems
    refine (hitems.1 _).bind fun _ => ?_
    exact (keeps_emitItems hitems.2 _ _).bind fun _ => hclose _

theorem keeps_cond {test yes : Expr} {no : Option Expr} (htest : ∀ base, Keeps P (emit base test))
    (hyes : ∀ base, Keeps P (emit base yes)) (hno : ∀ e ∈ no, ∀ base, Keeps P (emit base e))
    (base : Nat) : Keeps P (emit base (.cond test yes no)) := by
  rw [emit]
  refine (htest _).bind fun _ => (hyes _).bind fun _ => ?_
  cases no with
  | none =>
    refine (Keeps.pooled hnull).bind fun _ => (Keeps.pure _).bind fun _ => ?_
    exact (Keeps.target _).bind fun _ => (Keeps.target _).bind fun _ => .pure _
  | some e =>
    refine (hno e rfl _).bind fun _ => ?_
    exact (Keeps.target _).bind fun _ => (Keeps.target _).bind fun _ => .pure _

theorem keeps_loop {test : Option Expr} {body : Expr}
    (htest : ∀ e ∈ test, ∀ base, Keeps P (emit base e)) (hbody : ∀ base, Keeps P (emit base body))
    (base : Nat) : Keeps P (emit base (.loop test body)) := by
  rw [emit]
  refine (Keeps.target _).bind fun _ => ?_
  cases test with
  | none =>
    refine (Keeps.pure _).bind fun _ => (hbody _).bind fun _ => (Keeps.target _).bind fun _ => ?_
    exact (Keeps.pooled hnull).bind fun _ => .pure _
  | some e =>
    refine (htest e rfl _).bind fun _ => (hbody _).bind fun _ => (Keeps.target _).bind fun _ => ?_
    exact (Keeps.pooled hnull).bind fun _ => .pure _

include hstring

/-- What is emitted for an expression adds its literals, names and null. -/
theorem keeps_emit {e : Expr} (h : e.Literals P) (base : Nat) : Keeps P (emit base e) := by
  induction e using Expr.childrenInd generalizing base with
  | node e ih =>
    obtain ⟨hself, hparts⟩ := Expr.everywhere_iff.mp h
    replace hparts : ∀ part ∈ e.children, ∀ base, Keeps P (emit base part) :=
      fun part hpart base => ih part hpart (hparts part hpart) base
    cases e with
    | literal v => exact (Keeps.pooled (hself v rfl)).bind fun _ => .pure _
    | ref name => exact (keeps_emitRef hstring name).bind fun _ => .pure _
    | jump j => cases j <;> exact .pure _
    | unary op operand => exact (hparts _ List.mem_cons_self _).bind fun _ => .pure _
    | property target name =>
      refine (hparts _ List.mem_cons_self _).bind fun _ => ?_
      exact (Keeps.pooled (hstring name)).bind fun _ => .pure _
    | assign name value =>
      refine (hparts _ List.mem_cons_self _).bind fun _ => ?_
      exact (keeps_emitAssign hstring name).bind fun _ => .pure _
    | declare name value =>
      refine (hparts _ List.mem_cons_self _).bind fun _ => ?_
      exact (keeps_emitDeclare hstring name).bind fun _ => .pure _
    | binary left op right =>
      simp only [Expr.children, List.forall_mem_cons] at hparts
      refine (hparts.1 _).bind fun first => ?_
      split
      · exact (hparts.2.1 _).bind fun _ => (Keeps.target _).bind fun _ => .pure _
      · exact (hparts.2.1 _).bind fun _ => .pure _
    | index target position =>
      simp only [Expr.children, List.forall_mem_cons] at hparts
      exact (hparts.1 _).bind fun _ => (hparts.2.1 _).bind fun _ => .pure _
    | call name args =>
      refine (keeps_emitAll hparts _ _).bind fun _ => (Keeps.pooled (hstring name)).bind fun _ => ?_
      exact (Keeps.shortCount _ _).bind fun _ => .pure _
    | array items =>
      exact (keeps_emitAll hparts _ _).bind fun _ => (Keeps.count _ _).bind fun _ => .pure _
    | object entries =>
      refine (keeps_emitEntries hstring hparts _ _).bind fun _ => ?_
      exact (Keeps.count _ _).bind fun _ => .pure _
    | block items => exact keeps_block hnull hparts base
    | cond test yes no =>
      simp only [Expr.children, List.forall_mem_cons, Option.mem_toList] at hparts
      exact keeps_cond hnull hparts.1 hparts.2.1 hparts.2.2 base
    | loop test body =>
      simp only [Expr.children, List.forall_mem_append, List.forall_mem_singleton,
        Option.mem_toList] at hparts
      exact keeps_loop hnull hparts.1 hparts.2 base

/-- What is emitted for statements adds their literals, names and null. -/
theorem keeps_emitStatements {statements : List Statement}
    (h : ∀ s ∈ statements, s.expression.Literals P) (listing : Listing) :
    Keeps P (emitStatements listing statements) := by
  induction statements generalizing listing with
  | nil => exact .pure _
  | cons s rest ih =>
    rw [List.forall_mem_cons] at h
    rw [emitStatements]
    cases s.location with
    | none =>
      exact (Keeps.pure _).bind fun _ => (keeps_emit hnull hstring h.1 _).bind fun _ => ih h.2 _
    | some location =>
      refine (Keeps.target _).bind fun _ => (Keeps.pure _).bind fun _ => ?_
      exact (keeps_emit hnull hstring h.1 _).bind fun _ => ih h.2 _

theorem keeps_emitScript {script : Script} (h : ∀ s ∈ script.statements, s.expression.Literals P) :
    Keeps P (emitScript script) := by
  unfold emitScript
  split
  · exact (Keeps.pooled hnull).bind fun _ => .pure _
  · exact keeps_emitStatements hnull hstring h _

end Emission

end Emit

/-! ### Compiled scripts -/

section Compiled

variable {ι : Type} {level : UInt8} {registry : Registry ι} {script : Script}
  {declared : Permissions} {program : Program}

theorem compile_eq_ok_iff : compile level registry script declared = .ok program ↔
    compileScript level registry script declared = .ok program := by
  unfold compile
  cases compileScript level registry script declared <;> simp [Except.mapError]

/-- A property of strings and null is one of all constants of a program exactly if it is one of the
literals that are left after folding. -/
theorem constants_of_compileScript (hnull : P .null) (hstring : ∀ s, P (.string s))
    (h : compileScript level registry script declared = .ok program) :
    (∀ v ∈ program.constants, P v) ↔
      ∀ s ∈ (if level = 0 then script else script.fold).statements, s.expression.Literals P := by
  refine ⟨fun hconstants s hs => ?_, fun hliterals => ?_⟩
  · have hcode := (compileScript_eq_ok h).2.hasCodeOf (List.mem_map_of_mem hs)
    exact hcode.literals.imp hconstants
  · obtain ⟨-, -, listing, layout, hemit, rfl⟩ := compileScript_eq_ok_iff.mp h
    refine Emit.keeps_emitScript hnull hstring hliterals _ _ _ hemit fun v hv => ?_
    cases Array.not_mem_empty v hv

/-- The constants of a program that was made from a text are finite exactly if it was not folded, or
if the literals that folding has left are finite. -/
theorem compile_constants_finite_iff {name source : String}
    (hparse : parse name source = .ok script)
    (h : compile level registry script declared = .ok program) :
    (∀ v ∈ program.constants, v.Finite) ↔
      level = 0 ∨ ∀ s ∈ script.fold.statements, s.expression.Literals Value.Finite := by
  have hfinite : ∀ s ∈ script.statements, s.expression.Literals Value.Finite := fun s hs =>
    (Expr.Literals.of_payload (parse_shaped hparse s hs).literals).imp fun _ hv => hv.finite
  rw [constants_of_compileScript trivial (fun _ => trivial) (compile_eq_ok_iff.mp h)]
  split_ifs with hlevel
  · exact iff_of_true hfinite (.inl hlevel)
  · exact (or_iff_right hlevel).symm

/-- A product without a finite value does no harm if folding goes on to compare it. -/
theorem compile_constants_finite_compared : ∃ script program,
    parse "script" "1e308 * 10.0 > 1" = .ok script ∧
    compile 1 (.empty : Registry Empty) script .none = .ok program ∧
    (∀ v ∈ program.constants, v.Finite) ∧
    ∀ s ∈ script.fold.statements, s.expression.Literals Value.Finite := by
  have hcheck : (parse "script" "1e308 * 10.0 > 1").toOption.any (fun script =>
      (compile 1 (.empty : Registry Empty) script .none).toOption.any fun program =>
        Value.identicalItems program.constants.toList [.boolean true]) = true := by
    decide +kernel
  obtain ⟨script, hparse, hcheck⟩ := exists_ok_of_check hcheck
  obtain ⟨program, hcompile, hcheck⟩ := exists_ok_of_check hcheck
  have hfinite : ∀ v ∈ program.constants, v.Finite := by
    intro v hv
    rw [← Array.mem_toList_iff, Value.eq_of_identicalItems _ _ hcheck, List.mem_singleton] at hv
    subst hv
    trivial
  refine ⟨script, program, hparse, hcompile, hfinite, ?_⟩
  exact ((compile_constants_finite_iff hparse hcompile).mp hfinite).resolve_left (by decide)

/-- The product of these two finite literals is a constant that is not finite, and a program that is
not equal is read back from the text. -/
theorem exists_compile_constants_not_finite : ∃ script program program',
    parse "script" "1e308 * 10.0" = .ok script ∧
    compile 1 (.empty : Registry Empty) script .none = .ok program ∧
    (¬ ∀ v ∈ program.constants, v.Finite) ∧
    Program.parse? program.text = some program' ∧ program'.equal program = false := by
  have hcheck : (parse "script" "1e308 * 10.0").toOption.any (fun script =>
      (compile 1 (.empty : Registry Empty) script .none).toOption.any fun program =>
        Value.identicalItems program.constants.toList [.number (.infinity false)] &&
          (Program.parse? program.text).any (!·.equal program)) = true := by
    decide +kernel
  obtain ⟨script, hparse, hcheck⟩ := exists_ok_of_check hcheck
  obtain ⟨program, hcompile, hcheck⟩ := exists_ok_of_check hcheck
  obtain ⟨hinfinite, hother⟩ := (Bool.and_eq_true _ _).mp hcheck
  obtain ⟨program', hread, hother⟩ := (Option.any_eq_true _ _).mp hother
  refine ⟨script, program, program', hparse, hcompile, fun hfinite => ?_, hread,
    by simpa using hother⟩
  have hmem : Value.number (.infinity false) ∈ program.constants := by
    rw [← Array.mem_toList_iff, Value.eq_of_identicalItems _ _ hinfinite]
    exact List.mem_singleton_self _
  have hx : (Double.infinity false).isFinite = true := hfinite _ hmem
  exact absurd hx (by decide)

end Compiled

end Covenant
