import Covenant.Proofs.Simulation

/-!
# Code that computes constructs

For each construct, code made of the code of its parts computes what evaluation makes of the
evaluations of its parts. Nothing here depends on what the parts are.

## Main results

* `Computes.enter` : entering a node takes no instruction.
* `Computes.ref`, `Computes.assign`, `Computes.declare` : names are resolved correctly.
* `Computes.operate₁`, `Computes.operate₂`, `Computes.logical`, `Computes.choice` : operators and
  choices.
* `Computes.call`, `Computes.array`, `Computes.object` : several values on the stack.
-/

namespace Covenant

open Eval

variable {ι σ α : Type} {setting : Setting ι σ} {program : Program} {rounds : Nat}
  {target : Option Target} {site site₁ site₂ : Site} {base mid last : Nat} {stack : List Value}

/-! ### The effect of single instructions -/

namespace Machine

variable {pc : Nat} {frames : List (Array Value)} {globals : Frame Value}
  {loops : List LoopRecord} {ledger : Ledger σ} {v : Value}

theorem perform_constant {i : UInt32} (hpool : program.Pools i v) :
    perform setting program (.constant i) ⟨pc, stack, frames, globals, loops, ledger⟩ =
      .ok () ⟨pc, v :: stack, frames, globals, loops, ledger⟩ := by
  rw [perform, Program.constant_eq hpool]
  rfl

theorem perform_loadLocal {depth slot : UInt16} {values : Array Value}
    (hvalues : frames[depth.toNat]? = some values) (hv : values[slot.toNat]? = some v) :
    perform setting program (.loadLocal depth slot) ⟨pc, stack, frames, globals, loops, ledger⟩ =
      .ok () ⟨pc, v :: stack, frames, globals, loops, ledger⟩ := by
  have hread : readSlot depth.toNat slot.toNat ⟨pc, stack, frames, globals, loops, ledger⟩ =
      .ok v ⟨pc, stack, frames, globals, loops, ledger⟩ := by
    simp only [readSlot_apply, hvalues, hv]
  exact bind_of_ok hread

theorem perform_loadName {i : UInt32} {name : String} (hpool : program.Pools i (.string name)) :
    perform setting program (.loadName i) ⟨pc, stack, frames, globals, loops, ledger⟩ =
      match globals[name]? with
      | some v => .ok () ⟨pc, v :: stack, frames, globals, loops, ledger⟩
      | none => .error (.notDefined name) ⟨pc, stack, frames, globals, loops, ledger⟩ := by
  rw [perform, Program.nameConstant_eq hpool]
  have hread := readGlobal_apply name
    (⟨pc, stack, frames, globals, loops, ledger⟩ : Machine σ)
  dsimp only at hread
  cases hget : globals[name]? with
  | some v =>
    rw [hget] at hread
    exact bind_of_ok hread
  | none =>
    rw [hget] at hread
    exact bind_of_error (f := push) hread

/-- The value on top of the stack is stored in a slot and stays there. -/
theorem perform_storeLocal {depth slot : UInt16} {values : Array Value}
    (hvalues : frames[depth.toNat]? = some values) (hslot : slot.toNat < values.size) :
    perform setting program (.storeLocal depth slot)
        ⟨pc, v :: stack, frames, globals, loops, ledger⟩ =
      .ok () ⟨pc, v :: stack,
        frames.modify depth.toNat fun values => values.setIfInBounds slot.toNat v, globals, loops,
        ledger⟩ := by
  have hwrite : writeSlot depth.toNat slot.toNat v
      ⟨pc, v :: stack, frames, globals, loops, ledger⟩ = .ok () ⟨pc, v :: stack,
        frames.modify depth.toNat fun values => values.setIfInBounds slot.toNat v, globals, loops,
        ledger⟩ := by
    simp only [writeSlot, hvalues, hslot, if_true]
  exact hwrite

theorem perform_storeName {i : UInt32} {name : String} (hpool : program.Pools i (.string name)) :
    perform setting program (.storeName i) ⟨pc, v :: stack, frames, globals, loops, ledger⟩ =
      if globals.contains name then
        .ok () ⟨pc, v :: stack, frames, globals.insert name v, loops, ledger⟩
      else .error (.notDefined name) ⟨pc, v :: stack, frames, globals, loops, ledger⟩ := by
  rw [perform, Program.nameConstant_eq hpool]
  exact writeGlobal_apply name v ⟨pc, v :: stack, frames, globals, loops, ledger⟩

theorem perform_defineName {i : UInt32} {name : String} (hpool : program.Pools i (.string name)) :
    perform setting program (.defineName i) ⟨pc, v :: stack, frames, globals, loops, ledger⟩ =
      .ok () ⟨pc, v :: stack, frames, globals.insert name v, loops, ledger⟩ := by
  rw [perform, Program.nameConstant_eq hpool]
  rfl

theorem perform_shortCircuit_error {op : BinaryOp} {done : UInt32} {e : Error}
    (h : requireBoolean op.symbol v = .error e) :
    perform setting program (.shortCircuit op done)
        ⟨pc, v :: stack, frames, globals, loops, ledger⟩ =
      .error e ⟨pc, v :: stack, frames, globals, loops, ledger⟩ := by
  have hpeek : (peek : Exec σ Value) ⟨pc, v :: stack, frames, globals, loops, ledger⟩ =
    .ok v ⟨pc, v :: stack, frames, globals, loops, ledger⟩ := rfl
  rw [perform, bind_of_ok hpeek, h]
  rfl

theorem perform_shortCircuit {op : BinaryOp} {done : UInt32} (flag : Bool) :
    perform setting program (.shortCircuit op done)
        ⟨pc, .boolean flag :: stack, frames, globals, loops, ledger⟩ =
      if op.decides flag then
        .ok () ⟨done.toNat, .boolean flag :: stack, frames, globals, loops, ledger⟩
      else .ok () ⟨pc, stack, frames, globals, loops, ledger⟩ := by
  cases hdecides : op.decides flag
  all_goals
    change (if op.decides flag = true then _ else _ : Exec σ Unit) _ = _
    rw [hdecides]
    rfl

theorem perform_requireBool_error {op : BinaryOp} {e : Error}
    (h : requireBoolean op.symbol v = .error e) :
    perform setting program (.requireBool op) ⟨pc, v :: stack, frames, globals, loops, ledger⟩ =
      .error e ⟨pc, v :: stack, frames, globals, loops, ledger⟩ := by
  have hpeek : (peek : Exec σ Value) ⟨pc, v :: stack, frames, globals, loops, ledger⟩ =
    .ok v ⟨pc, v :: stack, frames, globals, loops, ledger⟩ := rfl
  rw [perform, bind_of_ok hpeek, h]
  rfl

theorem perform_jumpIfFalse_error {toElse : UInt32} {e : Error}
    (h : requireBoolean "condition" v = .error e) :
    perform setting program (.jumpIfFalse toElse)
        ⟨pc, v :: stack, frames, globals, loops, ledger⟩ =
      .error e ⟨pc, stack, frames, globals, loops, ledger⟩ := by
  have hpop : (pop : Exec σ Value) ⟨pc, v :: stack, frames, globals, loops, ledger⟩ =
    .ok v ⟨pc, stack, frames, globals, loops, ledger⟩ := rfl
  rw [perform, bind_of_ok hpop, h]
  rfl

/-- Values are taken from the stack in the order in which they were put there. -/
theorem takeStack_eq (top taken : List Value) :
    takeStack top.length taken (top ++ stack) = some (top.reverse ++ taken, stack) := by
  induction top generalizing taken with
  | nil => rfl
  | cons value rest ih =>
    rw [List.length_cons, List.cons_append, takeStack, ih]
    simp

theorem popMany_eq (values : List Value) :
    popMany values.length ⟨pc, values.reverse ++ stack, frames, globals, loops, ledger⟩ =
      .ok values ⟨pc, stack, frames, globals, loops, ledger⟩ := by
  have htake : takeStack values.reverse.length [] (values.reverse ++ stack) = _ :=
    takeStack_eq values.reverse []
  rw [List.length_reverse, List.reverse_reverse, List.append_nil] at htake
  simp only [popMany, htake]

/-- What an operation on the ledger does, it does whatever the count of steps. -/
theorem ofRun_uncounted {x : Run σ α} {k : Nat} (hx : Follows (Ledger.withSteps · k) x x) :
    ofRun x ⟨pc, stack, frames, globals, loops, ledger.withSteps k⟩ =
      mapState (fun ledger => ⟨pc, stack, frames, globals, loops, ledger.withSteps k⟩)
        (x ledger) := by
  have hfollows : x (ledger.withSteps k) = _ := hx ledger
  simp only [ofRun, hfollows]
  cases x ledger <;> rfl

end Machine

namespace Computes

variable (hfree : setting.limits.maxSteps = none)

include hfree

/-- Entering a node charges the evaluation a step, and takes no instruction. -/
theorem enter {depth : Nat} (hdepth : depth ≤ setting.limits.maxExpressionDepth.toNat)
    {x : Eval σ Value} (hx : Computes setting program rounds target site site₁ base last stack x) :
    Computes setting program rounds target site site₁ base last stack
      (Eval.enter setting depth >>= fun _ => x) := by
  intro w m h
  rw [bind_of_ok (enter_of_within (Limits.within_of_unlimited hfree _) hdepth)]
  exact hx _ m (h.withSteps _)

theorem literal {i : UInt32} {value : Value} (hop : program.At base (.constant i))
    (hpool : program.Pools i value) :
    Computes setting program rounds target site site base (base + 1) stack (pure value) := by
  intro w m h
  exact .goto hfree h hop (fun _ => Machine.perform_constant hpool) fun _ => .value

/-! ### Names -/

theorem ref {name : String} {op : Op} (hloads : Loads program site.scopes name op)
    (hop : program.At base op) :
    Computes setting program rounds target site site base (base + 1) stack (readName name) := by
  intro w m h
  have hstands : Stands site base ([] ++ stack) w m := h
  refine .operation hfree hstands hop fun pc ledger => ?_
  cases hloads with
  | slot hname =>
    obtain ⟨values, v, hvalues, hv, hget⟩ := h.scopes.get_local hname
    rw [hget]
    exact Machine.perform_loadLocal hvalues hv
  | global hname hpool =>
    rw [h.scopes.get_global hname]
    refine (Machine.perform_loadName hpool).trans ?_
    cases m.globals[name]? <;> rfl

theorem assign {name : String} {op : Op} {x : Eval σ Value}
    (hx : Computes setting program rounds target site site base mid stack x)
    (hassigns : Assigns program site.scopes name op) (hop : program.At mid op) :
    Computes setting program rounds target site site base (mid + 1) stack
      (x >>= fun a => Eval.assign name a >>= fun _ => pure a) := by
  intro w m h
  refine (hx w m h).bind fun a w₁ m₁ h₁ => ?_
  have hassign := assign_eq name a w₁
  cases hassigns with
  | slot hname =>
    obtain ⟨values, scopes, hvalues, hlt, hset, hscopes⟩ := h₁.scopes.assign_local hname a
    rw [hset] at hassign
    rw [bind_of_ok hassign]
    exact .effect hfree site h₁ hop (fun _ => Machine.perform_storeLocal hvalues hlt) hscopes
      fun _ => .value
  | bound hname hinner hpool =>
    rw [h₁.scopes.assign_bound hname hinner] at hassign
    have hperform (ledger : Ledger σ) : Machine.perform setting program _
        ⟨mid + 1, a :: stack, m₁.frames, m₁.globals, site.loops, ledger⟩ = _ :=
      Machine.perform_storeName hpool
    by_cases hcontains : m₁.globals.contains name = true
    · simp only [hcontains, if_true] at hassign hperform
      rw [bind_of_ok hassign]
      exact .effect hfree site h₁ hop hperform (h₁.scopes.setGlobal name a)
        fun _ => .value
    · simp only [hcontains] at hassign hperform
      rw [bind_of_error hassign]
      exact .failing hfree h₁ hop rfl hperform
  | global _ hglobal hpool =>
    rw [h₁.scopes.assign_global name hglobal] at hassign
    rw [bind_of_ok hassign]
    exact .effect hfree site h₁ hop (fun _ => Machine.perform_defineName hpool)
      (h₁.scopes.setGlobal name a) fun _ => .value

theorem declare {name : String} {op : Op} {S' : Scopes UInt16} {x : Eval σ Value}
    (hx : Computes setting program rounds target site site base mid stack x)
    (hdeclares : Declares program site.scopes name op S') (hop : program.At mid op)
    (hroom : ∀ capacity ∈ site.capacities.head?, S'.localCount ≤ capacity) :
    Computes setting program rounds target site { site with scopes := S' } base (mid + 1) stack
      (x >>= fun a => define name a >>= fun _ => pure a) := by
  intro w m h
  refine (hx w m h).bind fun a w₁ m₁ h₁ => ?_
  have hdefine : define name a w₁ = .ok () ⟨w₁.scopes.define name a, w₁.ledger⟩ := rfl
  rw [bind_of_ok hdefine]
  cases hdeclares with
  | again hinner hname =>
    obtain ⟨values, hvalues, hlt, hscopes⟩ := h₁.scopes.define_again hinner hname a
    exact .effect hfree site h₁ hop (fun _ => Machine.perform_storeLocal hvalues hlt) hscopes
      fun _ => .value
  | @fresh slot hinner hname hslot =>
    obtain ⟨values, hvalues, hlt, hscopes⟩ := h₁.scopes.define_fresh hinner hname hslot hroom a
    exact .effect hfree { site with scopes := site.scopes.define name slot } h₁ hop
      (fun _ => Machine.perform_storeLocal hvalues hlt) hscopes fun _ => .value
  | global hglobal hpool =>
    rw [h₁.scopes.define_global name hglobal]
    exact .effect hfree site h₁ hop (fun _ => Machine.perform_defineName hpool)
      (h₁.scopes.setGlobal name a) fun _ => .value

/-! ### Operators and choices -/

/-- An instruction that replaces one operand. -/
theorem operate₁ {op : Op} {x : Eval σ Value} {f : Value → Except Error Value}
    (hx : Computes setting program rounds target site site base last stack x)
    (hop : program.At last op)
    (hperform : ∀ a (m : Machine σ), Machine.perform setting program op
      { m with stack := a :: stack } =
        (Machine.ofExcept (f a) >>= Machine.push) { m with stack := stack }) :
    Computes setting program rounds target site site base (last + 1) stack
      (x >>= fun a => ofExcept (f a)) := by
  intro w m h
  refine (hx w m h).bind fun a w₁ m₁ h₁ => ?_
  have hstands : Stands site last ([a] ++ stack) w₁ m₁ := h₁
  exact .operation hfree hstands hop fun pc ledger =>
    hperform a ⟨pc, stack, m₁.frames, m₁.globals, site.loops, ledger⟩

/-- An instruction that replaces two operands. -/
theorem operate₂ {op : Op} {x y : Eval σ Value} {f : Value → Value → Except Error Value}
    (hx : Computes setting program rounds target site site base mid stack x)
    (hy : ∀ a, Computes setting program rounds target site site mid last (a :: stack) y)
    (hop : program.At last op)
    (hperform : ∀ a b (m : Machine σ), Machine.perform setting program op
      { m with stack := b :: a :: stack } =
        (Machine.ofExcept (f a b) >>= Machine.push) { m with stack := stack }) :
    Computes setting program rounds target site site base (last + 1) stack
      (x >>= fun a => y >>= fun b => ofExcept (f a b)) := by
  intro w m h
  refine (hx w m h).bind fun a w₁ m₁ h₁ => (hy a w₁ m₁ h₁).bind fun b w₂ m₂ h₂ => ?_
  have hstands : Stands site last ([b, a] ++ stack) w₂ m₂ := h₂
  exact .operation hfree hstands hop fun pc ledger =>
    hperform a b ⟨pc, stack, m₂.frames, m₂.globals, site.loops, ledger⟩

/-- The right operand is computed only if the left one does not decide. -/
theorem logical {op : BinaryOp} {done : UInt32} {x y : Eval σ Value}
    (hx : Computes setting program rounds target site site base mid stack x)
    (hshort : program.At mid (.shortCircuit op done))
    (hy : Computes setting program rounds target site site (mid + 1) last stack y)
    (hrequire : program.At last (.requireBool op)) (hdone : done.toNat = last + 1) :
    Computes setting program rounds target site site base (last + 1) stack
      (Eval.logical op x y) := by
  intro w m h
  rw [Eval.logical, Eval.truth, bind_assoc]
  refine (hx w m h).bind fun a w₁ m₁ h₁ => ?_
  refine .truth hfree (fun _ => rfl) h₁ hshort
    (fun e ledger he => Machine.perform_shortCircuit_error he) fun flag hflag => ?_
  subst hflag
  have hperform (ledger : Ledger σ) : Machine.perform setting program (.shortCircuit op done)
      ⟨mid + 1, .boolean flag :: stack, m₁.frames, m₁.globals, site.loops, ledger⟩ = _ :=
    Machine.perform_shortCircuit flag
  cases hdecides : op.decides flag with
  | true =>
    simp only [hdecides, if_true, hdone] at hperform ⊢
    exact .goto hfree h₁ hshort hperform fun _ => .value
  | false =>
    simp only [hdecides, Bool.false_eq_true, if_false] at hperform ⊢
    refine .goto hfree h₁ hshort hperform fun m₂ h₂ => ?_
    rw [Eval.truth, bind_assoc]
    refine (hy w₁ m₂ h₂).bind fun b w₃ m₃ h₃ => ?_
    refine .truth hfree (fun _ => rfl) h₃ hrequire
      (fun e ledger he => Machine.perform_requireBool_error he) fun flag' hflag' => ?_
    subst hflag'
    exact .goto hfree h₃ hrequire (fun _ => rfl) fun _ => .value

omit hfree in
/-- The two constructs that test a value, and what the machine says about both. -/
theorem plain_needsBoolean (found : Value.Kind) :
    (Error.type (.needsBoolean "condition" found)).plain =
        (Error.type (.needsBoolean "if condition" found)).plain ∧
      (Error.type (.needsBoolean "condition" found)).plain =
        (Error.type (.needsBoolean "loop condition" found)).plain := by
  simp [Error.plain]

/-- A value on top of the stack is tested: the machine goes on, or to the offset of the
instruction. -/
theorem test {Q : α → World σ → Machine σ → Prop} {J : Jump → World σ → Machine σ → Prop}
    {context : String} {toElse : UInt32} {value : Value} {f : Bool → Eval σ α} {w : World σ}
    {m : Machine σ}
    (hcontext : ∀ found, (Error.type (.needsBoolean "condition" found)).plain =
      (Error.type (.needsBoolean context found)).plain)
    (h : Stands site mid (value :: stack) w m) (hop : program.At mid (.jumpIfFalse toElse))
    (hyes : ∀ m', Stands site (mid + 1) stack w m' →
      Answers setting program rounds Q J m' (f true w))
    (hno : ∀ m', Stands site toElse.toNat stack w m' →
      Answers setting program rounds Q J m' (f false w)) :
    Answers setting program rounds Q J m ((ofExcept (requireBoolean context value) >>= f) w) := by
  refine .truth hfree hcontext h hop
    (fun e ledger he => Machine.perform_jumpIfFalse_error he) fun flag hflag => ?_
  subst hflag
  cases flag with
  | true => exact .goto hfree h hop (fun _ => rfl) hyes
  | false => exact .goto hfree h hop (fun _ => rfl) hno

theorem choice {toElse toEnd : UInt32} {fin : Nat} {x y z : Eval σ Value}
    (hx : Computes setting program rounds target site site base mid stack x)
    (htest : program.At mid (.jumpIfFalse toElse))
    (hy : Computes setting program rounds target site site (mid + 1) last stack y)
    (hjump : program.At last (.jump toEnd))
    (hz : Computes setting program rounds target site site (last + 1) fin stack z)
    (helse : toElse.toNat = last + 1) (hend : toEnd.toNat = fin) :
    Computes setting program rounds target site site base fin stack
      (Eval.choice x y (some z)) := by
  intro w m h
  rw [Eval.choice, Eval.truth, bind_assoc]
  refine (hx w m h).bind fun a w₁ m₁ h₁ => ?_
  refine test hfree (fun found => (plain_needsBoolean found).1) h₁ htest (fun m₂ h₂ => ?_)
    fun m₂ h₂ => ?_
  · refine (hy w₁ m₂ h₂).onward fun v w₃ m₃ h₃ => ?_
    have hat : program.At m₃.pc (.jump toEnd) := by rwa [h₃.pc]
    refine ⟨1, { m₃.next with pc := fin }, .one hfree hat ?_, ⟨rfl, h₃.stack, h₃.loops, h₃.scopes,
      h₃.next.ledger⟩⟩
    rw [← hend]
    rfl
  · rw [helse] at h₂
    exact hz w₁ m₂ h₂

/-! ### Several values on the stack -/

omit hfree in
/-- The values of expressions are put on the stack one behind the other. -/
theorem collect {es : List Expr} {part : Expr → Eval σ Value} {S' : Scopes UInt16}
    (hparts : ∀ e ∈ es, Translates setting program rounds target site stack e (part e))
    (hcode : CodeOfAll program site.scopes base es last S') (done above : List Value) {w : World σ}
    {m : Machine σ} (h : Stands site base (done ++ (above ++ stack)) w m) :
    Answers setting program rounds
      (fun values w m => values.length = done.length + es.length ∧
        Stands site last (values.reverse ++ (above ++ stack)) w m)
      (Jumped target site.depth) m (Eval.collect done (es.map part) w) := by
  induction es generalizing base done w m with
  | nil =>
    cases hcode
    refine .ok ⟨by simp, ?_⟩
    rwa [List.reverse_reverse]
  | cons e rest ih =>
    cases hcode with
    | cons hhead htail =>
      rw [List.forall_mem_cons] at hparts
      obtain ⟨rfl, hx⟩ := hparts.1 _ _ _ hhead
      rw [← List.append_assoc] at h
      refine (hx (done ++ above) w m h).bind fun v w₁ m₁ h₁ => ?_
      rw [List.append_assoc] at h₁
      refine (ih hparts.2 htail (v :: done) h₁).mono (Nat.le_refl _)
        (fun values w₂ m₂ hvalues => ?_) fun _ _ _ => id
      exact ⟨by simp only [hvalues.1, List.length_cons]; omega, hvalues.2⟩

omit hfree in
theorem collectAll {es : List Expr} {part : Expr → Eval σ Value} {S' : Scopes UInt16}
    (hparts : ∀ e ∈ es, Translates setting program rounds target site stack e (part e))
    (hcode : CodeOfAll program site.scopes base es last S') {count : Nat}
    (hcount : count = es.length) (above : List Value) {w : World σ} {m : Machine σ}
    (h : Stands site base (above ++ stack) w m) :
    Answers setting program rounds
      (fun values w m => values.length = count ∧
        Stands site last (values.reverse ++ (above ++ stack)) w m)
      (Jumped target site.depth) m (Eval.collect [] (es.map part) w) := by
  have hstands : Stands site base ([] ++ (above ++ stack)) w m := h
  refine (collect hparts hcode [] above hstands).mono (Nat.le_refl _) ?_ fun _ _ _ => id
  intro values w₁ m₁ ⟨hlength, h₁⟩
  exact ⟨by rw [hlength, hcount, List.length_nil, Nat.zero_add], h₁⟩

theorem array {count : UInt32} {x : Eval σ (List Value)}
    (hx : ∀ w m, Stands site base stack w m → Answers setting program rounds
      (fun values w m => values.length = count.toNat ∧
        Stands site last (values.reverse ++ stack) w m) (Jumped target site.depth) m (x w))
    (hop : program.At last (.makeArray count)) :
    Computes setting program rounds target site site base (last + 1) stack
      (x >>= fun values => pure (.array values)) := by
  intro w m h
  refine (hx w m h).bind fun values w₁ m₁ ⟨hcount, h₁⟩ => ?_
  refine .goto hfree h₁ hop (fun ledger => ?_) fun _ => .value
  rw [Machine.perform, ← hcount, bind_of_ok (Machine.popMany_eq values)]
  rfl

/-- A call does on the ledger of the machine what it does on that of the evaluation. -/
theorem call {i : UInt32} {argc : UInt16} {name : String} {x : Eval σ (List Value)}
    (hx : ∀ w m, Stands site base stack w m → Answers setting program rounds
      (fun values w m => values.length = argc.toNat ∧
        Stands site last (values.reverse ++ stack) w m) (Jumped target site.depth) m (x w))
    (hpool : program.Pools i (.string name)) (hop : program.At last (.call i argc)) :
    Computes setting program rounds target site site base (last + 1) stack
      (x >>= fun values => ofRun (Run.call setting name values)) := by
  intro w m h
  refine (hx w m h).bind fun values w₁ m₁ ⟨hcount, h₁⟩ => ?_
  have hat : program.At m₁.pc (.call i argc) := by rwa [h₁.pc]
  have hcall : Machine.ofRun (Run.call setting name values) ⟨last + 1, stack, m₁.frames,
      m₁.globals, site.loops, w₁.ledger.withSteps (m₁.ledger.steps + 1)⟩ = _ :=
    Machine.ofRun_uncounted (Run.call_uncounted _ setting name values)
  have hname (m : Machine σ) : Machine.ofExcept (.ok name) m = .ok name m := rfl
  have hperform : Machine.perform setting program (.call i argc) m₁.next =
      (Machine.ofRun (Run.call setting name values) >>= Machine.push) ⟨last + 1, stack, m₁.frames,
        m₁.globals, site.loops, w₁.ledger.withSteps (m₁.ledger.steps + 1)⟩ := by
    rw [h₁.next_eq, Machine.perform, Program.nameConstant_eq hpool, bind_of_ok (hname _), ← hcount,
      bind_of_ok (Machine.popMany_eq values)]
  cases hr : Run.call setting name values w₁.ledger with
  | ok v l =>
    rw [hr] at hcall
    rw [bind_of_ok hcall] at hperform
    rw [ofRun_of_ok hr]
    exact ⟨1, _, .one hfree hat hperform, ⟨rfl, rfl, rfl, h₁.scopes, rfl⟩⟩
  | error e l =>
    rw [hr] at hcall
    rw [bind_of_error hcall] at hperform
    rw [ofRun_of_error hr]
    exact .fail (.one hfree hat hperform) rfl rfl

/-- The values of entries are put on the stack, each behind its key. -/
theorem gather {entries : List (String × Expr)} {part : Expr → Eval σ Value} {S' : Scopes UInt16}
    (hparts : ∀ entry ∈ entries,
      Translates setting program rounds target site stack entry.2 (part entry.2))
    (hcode : CodeOfEntries program site.scopes base entries last S') (done : Table Value)
    (flat above : List Value)
    (hflat : ∀ rest, Machine.objectOf [] (flat ++ rest) = Machine.objectOf done rest)
    {w : World σ} {m : Machine σ} (h : Stands site base (flat.reverse ++ (above ++ stack)) w m) :
    Answers setting program rounds
      (fun table w m => ∃ flat', flat'.length = flat.length + 2 * entries.length ∧
        Machine.objectOf [] flat' = .ok table ∧
        Stands site last (flat'.reverse ++ (above ++ stack)) w m)
      (Jumped target site.depth) m
      (Eval.gather done (entries.map fun entry => (entry.1, part entry.2)) w) := by
  induction entries generalizing base done flat w m with
  | nil =>
    cases hcode
    refine .ok ⟨flat, rfl, ?_, h⟩
    have hend := hflat []
    rwa [List.append_nil] at hend
  | cons entry rest ih =>
    cases hcode with
    | @cons _ _ _ _ next _ key e _ i hkey hpool hhead htail =>
      rw [List.forall_mem_cons] at hparts
      obtain ⟨rfl, hx⟩ := hparts.1 _ _ _ hhead
      refine .goto hfree h hkey (fun _ => Machine.perform_constant hpool) fun m₁ h₁ => ?_
      rw [← List.append_assoc, ← List.cons_append] at h₁
      refine (hx (.string key :: (flat.reverse ++ above)) w m₁ h₁).bind fun v w₂ m₂ h₂ => ?_
      have hstands : Stands site next ((flat ++ [.string key, v]).reverse ++ (above ++ stack)) w₂
          m₂ := by
        simpa using h₂
      refine (ih hparts.2 htail (done.insert key v) (flat ++ [.string key, v]) (fun more => ?_)
        hstands).mono (Nat.le_refl _) ?_ fun _ _ _ => id
      · rw [List.append_assoc, hflat]
        rfl
      · rintro table w₃ m₃ ⟨flat', hlength, htable, h₃⟩
        refine ⟨flat', ?_, htable, h₃⟩
        simp only [hlength, List.length_append, List.length_cons, List.length_nil]
        omega

theorem gatherAll {entries : List (String × Expr)} (part : Expr → Eval σ Value)
    {S' : Scopes UInt16}
    (hparts : ∀ entry ∈ entries,
      Translates setting program rounds target site stack entry.2 (part entry.2))
    (hcode : CodeOfEntries program site.scopes base entries last S') {count : Nat}
    (hcount : count = entries.length) (above : List Value) {w : World σ} {m : Machine σ}
    (h : Stands site base (above ++ stack) w m) :
    Answers setting program rounds
      (fun table w m => ∃ flat, flat.length = 2 * count ∧
        Machine.objectOf [] flat = .ok table ∧
        Stands site last (flat.reverse ++ (above ++ stack)) w m)
      (Jumped target site.depth) m
      (Eval.gather [] (entries.map fun entry => (entry.1, part entry.2)) w) := by
  have hstands : Stands site base (([] : List Value).reverse ++ (above ++ stack)) w m := h
  refine (gather hfree hparts hcode [] [] above (fun _ => rfl) hstands).mono (Nat.le_refl _) ?_
    fun _ _ _ => id
  intro table w₁ m₁ ⟨flat, hlength, htable, h₁⟩
  exact ⟨flat, by rw [hlength, hcount, List.length_nil, Nat.zero_add], htable, h₁⟩

theorem object {count : UInt32} {x : Eval σ (Table Value)}
    (hx : ∀ w m, Stands site base stack w m → Answers setting program rounds
      (fun table w m => ∃ flat, flat.length = 2 * count.toNat ∧
        Machine.objectOf [] flat = .ok table ∧ Stands site last (flat.reverse ++ stack) w m)
      (Jumped target site.depth) m (x w))
    (hop : program.At last (.makeObject count)) :
    Computes setting program rounds target site site base (last + 1) stack
      (x >>= fun table => pure (.object table)) := by
  intro w m h
  refine (hx w m h).bind fun table w₁ m₁ ⟨flat, hcount, htable, h₁⟩ => ?_
  refine .goto hfree h₁ hop (fun ledger => ?_) fun _ => .value
  rw [Machine.perform, Nat.mul_comm, ← hcount, bind_of_ok (Machine.popMany_eq flat), htable]
  rfl

end Computes

end Covenant
