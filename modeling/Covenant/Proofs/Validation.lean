import Covenant.Proofs.Audit
import Covenant.Proofs.Callees
import Covenant.Proofs.Faults

/-!
# Calls that compilation has checked

A compiled program calls only built-in functions and registered capabilities whose permissions were
declared. With the capabilities it was compiled with, and at least the declared permissions, no call
of a run lacks a permission or names a function that there is not, and every record of the run is of
a capability whose permission was declared.

Whether a name is bound is not checked by compilation. A run can end with an error about such a
name, but only where an instruction reads it or gives it a new value.

## Main definitions

* `Registry.Reachable` : the registries that registrations and removals make.
* `Callable` : a built-in function, or a capability whose permission is declared.
* `Machine.Quiet` : an operation that attempts no call and does not fail because of a name.
* `Op.UsesName` : an instruction that reads a name or gives it a new value.
* `Authorized` : what a run does with the permissions that were declared for its program.

## Main results

* `Run.call_meets` : a call of a callable function is permitted, and on record as such.
* `Machine.step_meets` : what every instruction of a checked program keeps.
* `compile_callable` : which calls a compiled program makes, and what that means for its runs.
-/

namespace Covenant

variable {ι σ α β : Type}

/-! ### Registries -/

namespace Registry

/-- The registries that registrations, replacements and removals make. -/
inductive Reachable : Registry ι → Prop
  | empty : Reachable .empty
  | register {r r' : Registry ι} {c : Capability ι} : Reachable r → r.register c = .ok r' →
    Reachable r'
  | replace {r r' : Registry ι} {c : Capability ι} : Reachable r → r.replace c = .ok r' →
    Reachable r'
  | remove {r : Registry ι} (name : String) : Reachable r → Reachable (r.remove name)

/-- What holds of no entries, and is kept when a capability with a proper name is put under its name
and when a name is erased, holds of the entries of every registry. -/
theorem Reachable.entries_induction {P : Table (Capability ι) → Prop} (hempty : P [])
    (hinsert : ∀ table c, checkName c = .ok () → P table → P (table.insert c.qualifiedName c))
    (herase : ∀ table name, P table → P (table.erase name)) {r : Registry ι} (h : r.Reachable) :
    P r.entries := by
  induction h with
  | empty => exact hempty
  | register _ hregister ih =>
    obtain ⟨_, hname, h⟩ := bind_eq_ok_iff.mp hregister
    split_ifs at h
    · cases h
    · cases h
      exact hinsert _ _ hname ih
  | replace _ hreplace ih =>
    obtain ⟨_, hname, h⟩ := bind_eq_ok_iff.mp hreplace
    cases h
    exact hinsert _ _ hname ih
  | remove name _ ih => exact herase _ name ih

/-- A capability is registered under its own name. -/
theorem Reachable.qualifiedName_eq {r : Registry ι} (h : r.Reachable) :
    ∀ entry ∈ r.entries, entry.1 = entry.2.qualifiedName := by
  refine h.entries_induction (P := fun table => ∀ entry ∈ table, entry.1 = entry.2.qualifiedName)
    (List.forall_mem_nil _) (fun table c _ htable entry hentry => ?_)
    fun table name htable entry hentry => htable entry (Table.mem_of_mem_erase hentry)
  rcases Table.mem_of_mem_insert hentry with rfl | hentry
  · rfl
  · exact htable entry hentry

/-- The name of a registered capability has a point. -/
theorem Reachable.contains_point {r : Registry ι} (h : r.Reachable) {name : String}
    {c : Capability ι} (hname : r.get? name = some c) : name.toList.contains '.' = true := by
  have heq : name = c.qualifiedName := h.qualifiedName_eq _ (Table.mem_of_find? hname)
  rw [heq]
  simp [Capability.qualifiedName]

end Registry

/-- The name is that of a built-in function, or of a registered capability whose permission is
declared. -/
def Callable (registry : Registry ι) (declared : Permissions) (name : String) : Prop :=
  Builtin.isName name = true ∨
    ∃ c, registry.get? name = some c ∧ declared.allows c.permission = true

theorem checkCall_eq_ok_iff {registry : Registry ι} {declared : Permissions} {name : String} :
    checkCall registry declared name = .ok () ↔ Callable registry declared name := by
  unfold checkCall Callable
  split_ifs with hbuiltin
  · simp [hbuiltin]
  · split
    · simp [*]
    · rename_i c hc
      split_ifs with hallowed <;> simp [*]

/-! ### Calls -/

/-- The record is of a registered capability whose permission is declared. -/
def Backed (setting : Setting ι σ) (declared : Permissions) (r : CallRecord) : Prop :=
  ∃ name c, RecordOf setting r name c ∧ declared.allows c.permission = true

/-- The error says that a name is not bound or that a permission is missing. -/
def Error.ByName : Error → Prop
  | .notDefined _ | .permissionDenied _ _ => True
  | _ => False

theorem Error.ByValues.not_byName {e : Error} (h : e.ByValues) : ¬ e.ByName := by
  cases e <;> first | exact h.elim | exact id

namespace Run

variable {setting : Setting ι σ} {declared : Permissions}

theorem builtin_meets (b : Builtin) (args : List Value) :
    Keeps (fun l => ∀ r ∈ l.calls, Backed setting declared r)
      (fun e l => (∀ r ∈ l.calls, Backed setting declared r) ∧ ¬ e.ByName)
      (builtin setting b args) := by
  intro l hl
  have hfails := Builtin.apply_byValues setting.clock b args
  unfold builtin
  cases b.line? args <;> cases hresult : b.apply setting.clock args <;> rw [hresult] at hfails
  · exact ⟨hl, hfails.not_byName⟩
  · exact hl
  · exact ⟨hl, hfails.not_byName⟩
  · exact hl

/-- A call of a callable function is permitted, and on record as such. -/
theorem call_meets (hregistry : setting.host.registry.Reachable)
    (hgranted : ∀ permission, declared.allows permission = true →
      setting.granted.allows permission = true)
    {name : String} (hname : Callable setting.host.registry declared name) (args : List Value) :
    Keeps (fun l => ∀ r ∈ l.calls, Backed setting declared r)
      (fun e l => (∀ r ∈ l.calls, Backed setting declared r) ∧ ¬ e.ByName)
      (call setting name args) := by
  unfold call
  split
  · exact builtin_meets _ args
  · rename_i hbuiltin
    obtain ⟨c, hc, hdeclared⟩ := hname.resolve_left (by simp [Builtin.isName, hbuiltin])
    rw [if_pos (hregistry.contains_point hc)]
    intro l hl
    have hrecord (outcome : CallOutcome) (cancels : Bool) (state : σ) :
        ∀ r ∈ (l.afterCall ⟨c.subsystem, c.function, args, outcome⟩ cancels state).calls,
          Backed setting declared r := by
      intro r hr
      rcases Array.mem_push.mp hr with hr | rfl
      · exact hl r hr
      · exact ⟨name, c, ⟨hc, rfl, rfl⟩, hdeclared⟩
    cases hresult : (setting.host.perform c.implementation args l.host).1.result with
    | ok value =>
      rw [invoke_of_returned hc (hgranted _ hdeclared) hresult]
      exact hrecord _ _ _
    | error cause =>
      rw [invoke_of_failed hc (hgranted _ hdeclared) hresult]
      exact ⟨hrecord _ _ _, id⟩

end Run

/-! ### Instructions that attempt no call -/

/-- A name is found among the constants, or the program is malformed. -/
theorem Program.nameConstant_cases (program : Program) (i : UInt32) :
    (∃ name, program.nameConstant i = .ok name ∧ program.Pools i (.string name)) ∨
      ∃ fault, program.nameConstant i = .error (.compile fault) := by
  unfold nameConstant constant Pools
  rcases program.constants[i.toNat]? with _ | v
  · exact .inr ⟨_, rfl⟩
  · cases v with
    | string name => exact .inl ⟨name, rfl, rfl⟩
    | _ => exact .inr ⟨_, rfl⟩

namespace Machine

/-- The operation attempts no call, and does not fail because of a name. -/
def Quiet (x : Exec σ α) : Prop :=
  ∀ P : Array CallRecord → Prop, Keeps (fun m => P m.ledger.calls)
    (fun e m => P m.ledger.calls ∧ ¬ e.ByName) x

namespace Quiet

theorem pure (a : α) : Quiet (pure a : Exec σ α) :=
  fun _ => .pure a

theorem bind {x : Exec σ α} {f : α → Exec σ β} (hx : Quiet x) (hf : ∀ a, Quiet (f a)) :
    Quiet (x >>= f) :=
  fun P => (hx P).bind fun a => hf a P

/-- What happens beside the ledger is quiet if it does not fail because of a name. -/
theorem of_aside {x : Exec σ α} (h : Aside x x)
    (herror : ∀ {m e m'}, x m = .error e m' → ¬ e.ByName) : Quiet x := by
  intro P m hm
  have hkept := h.kept m
  rcases hr : x m with ⟨a, m'⟩ | ⟨e, m'⟩ <;> rw [hr] at hkept
  · exact (congrArg (P ·.calls) hkept).mpr hm
  · exact ⟨(congrArg (P ·.calls) hkept).mpr hm, herror hr⟩

/-- What happens to the ledger is quiet if no call is recorded. -/
theorem of_run {x : Run σ α} (hcalls : ∀ l, (reached (x l)).calls = l.calls)
    (herror : ∀ {l e l'}, x l = .error e l' → ¬ e.ByName) : Quiet (Machine.ofRun x) := by
  intro P m hm
  have hkept := hcalls m.ledger
  rcases hr : x m.ledger with ⟨a, l'⟩ | ⟨e, l'⟩ <;> rw [hr] at hkept
  · rw [ofRun_of_ok hr]
    exact (congrArg P hkept).mpr hm
  · rw [ofRun_of_error hr]
    exact ⟨(congrArg P hkept).mpr hm, herror hr⟩

theorem ofExcept {result : Except Error α} (h : ∀ {e}, result = .error e → ¬ e.ByName) :
    Quiet (ofExcept result : Exec σ α) := by
  refine of_aside (.ofExcept result) fun {m e m'} hr => ?_
  cases result with
  | ok a => cases hr
  | error e' =>
    cases hr
    exact h rfl

theorem byValues {result : Except Error α} (h : FailsByValues result) :
    Quiet (Machine.ofExcept result : Exec σ α) := by
  refine .ofExcept fun {e} he => ?_
  rw [he] at h
  exact h.not_byName

theorem push (value : Value) : Quiet (push value : Exec σ Unit) :=
  .of_aside (.push value) (fun h => nomatch h)

theorem pop : Quiet (pop : Exec σ Value) := by
  refine .of_aside .pop fun {m _ _} h => ?_
  obtain ⟨pc, stack, frames, globals, loops, ledger⟩ := m
  cases stack <;> cases h
  exact id

theorem peek : Quiet (peek : Exec σ Value) := by
  refine .of_aside .peek fun {m _ _} h => ?_
  obtain ⟨pc, stack, frames, globals, loops, ledger⟩ := m
  cases stack <;> cases h
  exact id

theorem popMany (count : Nat) : Quiet (popMany count : Exec σ (List Value)) := by
  refine .of_aside (.popMany count) fun {m _ _} h => ?_
  unfold Machine.popMany at h
  dsimp only at h
  split at h <;> cases h
  exact id

theorem jumpTo (target : Nat) : Quiet (jumpTo target : Exec σ Unit) :=
  .of_aside (.jumpTo target) (fun h => nomatch h)

theorem readSlot (depth slot : Nat) : Quiet (readSlot depth slot : Exec σ Value) := by
  refine .of_aside (.readSlot depth slot) fun {m _ _} h => ?_
  rw [readSlot_apply] at h
  split at h
  · cases h
    exact id
  · split at h <;> cases h
    exact id

theorem writeSlot (depth slot : Nat) (value : Value) :
    Quiet (writeSlot depth slot value : Exec σ Unit) := by
  refine .of_aside (.writeSlot depth slot value) fun {m _ _} h => ?_
  unfold Machine.writeSlot at h
  dsimp only at h
  split at h
  · cases h
    exact id
  · split_ifs at h
    cases h
    exact id

theorem defineGlobal (name : String) (value : Value) :
    Quiet (defineGlobal name value : Exec σ Unit) :=
  .of_aside (.defineGlobal name value) (fun h => nomatch h)

theorem openFrame (slots : Nat) : Quiet (openFrame slots : Exec σ Unit) :=
  .of_aside (.openFrame slots) (fun h => nomatch h)

theorem closeFrame : Quiet (closeFrame : Exec σ Unit) := by
  refine .of_aside .closeFrame fun {m _ _} h => ?_
  obtain ⟨pc, stack, frames, globals, loops, ledger⟩ := m
  cases frames <;> cases h
  exact id

theorem openLoop (continueTarget breakTarget : Nat) :
    Quiet (openLoop continueTarget breakTarget : Exec σ Unit) :=
  .of_aside (.openLoop continueTarget breakTarget) (fun h => nomatch h)

theorem closeLoop : Quiet (closeLoop : Exec σ Unit) := by
  refine .of_aside .closeLoop fun {m _ _} h => ?_
  obtain ⟨pc, stack, frames, globals, loops, ledger⟩ := m
  cases loops <;> cases h
  exact id

theorem unwind : Quiet (unwind : Exec σ LoopRecord) := by
  refine .of_aside .unwind fun {m _ _} h => ?_
  obtain ⟨pc, stack, frames, globals, loops, ledger⟩ := m
  cases loops <;> cases h
  exact id

theorem get : Quiet (get : Exec σ (Machine σ)) :=
  fun _ _ hm => hm

theorem charge (limits : Limits) : Quiet (Machine.ofRun (Run.charge limits) : Exec σ Unit) := by
  refine .of_run (fun l => by rw [Run.charge_reached]; rfl) fun {l _ _} h => ?_
  obtain hwithin | ⟨limit, hlimit, hexceeded⟩ := Run.within_or_exceeded limits (l.steps + 1)
  · rw [Run.charge_of_within hwithin] at h
    cases h
  · rw [Run.charge_of_exceeded hlimit hexceeded] at h
    cases h
    exact id

theorem checkpoint (limits : Limits) :
    Quiet (Machine.ofRun (Run.checkpoint limits) : Exec σ Unit) := by
  refine .of_run (fun l => by rw [Run.checkpoint_reached]) fun {l _ _} h => ?_
  unfold Run.checkpoint at h
  split_ifs at h
  · cases h
    exact id
  · split at h <;> cases h
    exact id

theorem checkScopeDepth (limits : Limits) (depth : Nat) :
    Quiet (Machine.ofRun (Run.checkScopeDepth limits depth) : Exec σ Unit) := by
  refine .of_run (fun l => by rw [Run.checkScopeDepth_reached]) fun {l _ _} h => ?_
  unfold Run.checkScopeDepth at h
  split_ifs at h <;> cases h
  exact id

theorem constant (program : Program) (i : UInt32) :
    Quiet (Machine.ofExcept (program.constant i) : Exec σ Value) := by
  refine .ofExcept fun {e} h => ?_
  unfold Program.constant at h
  split at h <;> cases h
  exact id

theorem nameConstant (program : Program) (i : UInt32) :
    Quiet (Machine.ofExcept (program.nameConstant i) : Exec σ String) := by
  refine .ofExcept fun {e} h => ?_
  obtain ⟨name, hname, -⟩ | ⟨fault, hfault⟩ := program.nameConstant_cases i
  · rw [hname] at h
    cases h
  · rw [hfault] at h
    cases h
    exact id

theorem objectOf (done : Table Value) (flat : List Value) :
    Quiet (Machine.ofExcept (Machine.objectOf done flat) : Exec σ (Table Value)) := by
  refine .ofExcept fun {e} h => ?_
  fun_induction Machine.objectOf done flat with
  | case1 done key value rest ih => exact ih h
  | case2 =>
    cases h
    exact id
  | case3 => cases h

end Quiet

theorem perform_quiet (setting : Setting ι σ) (program : Program) {op : Op}
    (hcall : ∀ i argc, op ≠ .call i argc) (hload : ∀ i, op ≠ .loadName i)
    (hstore : ∀ i, op ≠ .storeName i) : Quiet (perform setting program op) := by
  cases op with
  | constant i => exact .bind (.constant program i) fun _ => .push _
  | loadLocal depth slot => exact .bind (.readSlot _ _) fun _ => .push _
  | storeLocal depth slot => exact .bind .peek fun _ => .writeSlot _ _ _
  | loadName i => exact absurd rfl (hload i)
  | storeName i => exact absurd rfl (hstore i)
  | defineName i =>
    exact .bind (.nameConstant program i) fun _ => .bind .peek fun _ => .defineGlobal _ _
  | binary op =>
    exact .bind .pop fun b => .bind .pop fun a =>
      .bind (.byValues (op.apply_byValues a b)) fun _ => .push _
  | unary op =>
    exact .bind .pop fun a => .bind (.byValues (op.apply_byValues a)) fun _ => .push _
  | shortCircuit op target =>
    refine .bind .peek fun a => .bind (.byValues (requireBoolean_byValues _ a)) fun flag => ?_
    cases op.decides flag with
    | true => exact .jumpTo _
    | false => exact .bind .pop fun _ => .pure _
  | requireBool op =>
    exact .bind .peek fun a => .bind (.byValues (requireBoolean_byValues _ a)) fun _ => .pure _
  | call i argc => exact absurd rfl (hcall i argc)
  | makeArray count => exact .bind (.popMany _) fun _ => .push _
  | makeObject count =>
    exact .bind (.popMany _) fun flat => .bind (.objectOf _ flat) fun _ => .push _
  | getProperty i =>
    exact .bind (.nameConstant program i) fun name => .bind .pop fun a =>
      .bind (.byValues (a.property_byValues name)) fun _ => .push _
  | getIndex =>
    exact .bind .pop fun b => .bind .pop fun a =>
      .bind (.byValues (a.index_byValues b)) fun _ => .push _
  | jump target => exact .jumpTo _
  | jumpIfFalse target =>
    refine .bind .pop fun a => .bind (.byValues (requireBoolean_byValues _ a)) fun flag => ?_
    cases flag with
    | true => exact .pure _
    | false => exact .jumpTo _
  | pop => exact .bind .pop fun _ => .pure _
  | enterScope slots =>
    exact .bind (.checkpoint _) fun _ => .bind .get fun _ =>
      .bind (.checkScopeDepth _ _) fun _ => .openFrame _
  | exitScope => exact .closeFrame
  | loopEnter continueTarget breakTarget => exact .openLoop _ _
  | loopExit => exact .closeLoop
  | break_ => exact .bind .unwind fun _ => .jumpTo _
  | continue_ => exact .bind .unwind fun _ => .jumpTo _
  | tick => exact .checkpoint _

end Machine

/-! ### Runs of checked programs -/

/-- The instruction reads the name or gives it a new value. -/
inductive Op.UsesName (program : Program) (name : String) : Op → Prop
  | load {i : UInt32} : program.Pools i (.string name) → UsesName program name (.loadName i)
  | store {i : UInt32} : program.Pools i (.string name) → UsesName program name (.storeName i)

namespace Machine

/-- All records are of registered capabilities whose permissions are declared. -/
def AllBacked (setting : Setting ι σ) (declared : Permissions) (m : Machine σ) : Prop :=
  ∀ r ∈ m.ledger.calls, Backed setting declared r

/-- All records are backed, and an error about a name is about one that the instruction uses. -/
def Blames (setting : Setting ι σ) (program : Program) (declared : Permissions) (op : Op)
    (e : Error) (m : Machine σ) : Prop :=
  AllBacked setting declared m ∧
    (e.ByName → ∃ name, e = .notDefined name ∧ op.UsesName program name)

section Checked

variable {setting : Setting ι σ} {program : Program} {declared : Permissions}

theorem Quiet.meets {x : Exec σ α} (hx : Quiet x) (op : Op) :
    Keeps (AllBacked setting declared) (Blames setting program declared op) x :=
  Keeps.imp (hx fun calls => ∀ r ∈ calls, Backed setting declared r)
    fun _ _ h => ⟨h.1, fun hname => absurd hname h.2⟩

theorem ofExcept_ok_bind (a : α) (f : α → Exec σ β) : (ofExcept (.ok a) >>= f) = f a := rfl

theorem loadName_meets (i : UInt32) :
    Keeps (AllBacked setting declared) (Blames setting program declared (.loadName i))
      (perform setting program (.loadName i)) := by
  obtain ⟨name, hname, hpool⟩ | ⟨fault, hfault⟩ := program.nameConstant_cases i
  · have hread : Keeps (AllBacked setting declared) (Blames setting program declared (.loadName i))
        (readGlobal name : Exec σ Value) := by
      intro m hm
      rw [readGlobal_apply]
      split
      · exact hm
      · exact ⟨hm, fun _ => ⟨name, rfl, .load hpool⟩⟩
    rw [perform, hname, ofExcept_ok_bind]
    exact hread.bind fun v => (Quiet.push v).meets _
  · rw [perform, hfault]
    exact fun m hm => ⟨hm, fun h => h.elim⟩

theorem storeName_meets (i : UInt32) :
    Keeps (AllBacked setting declared) (Blames setting program declared (.storeName i))
      (perform setting program (.storeName i)) := by
  obtain ⟨name, hname, hpool⟩ | ⟨fault, hfault⟩ := program.nameConstant_cases i
  · have hwrite (v : Value) : Keeps (AllBacked setting declared)
        (Blames setting program declared (.storeName i)) (writeGlobal name v : Exec σ Unit) := by
      intro m hm
      rw [writeGlobal_apply]
      split
      · exact hm
      · exact ⟨hm, fun _ => ⟨name, rfl, .store hpool⟩⟩
    rw [perform, hname, ofExcept_ok_bind]
    exact (Quiet.peek.meets _).bind hwrite
  · rw [perform, hfault]
    exact fun m hm => ⟨hm, fun h => h.elim⟩

variable (hregistry : setting.host.registry.Reachable)
  (hgranted : ∀ permission, declared.allows permission = true →
    setting.granted.allows permission = true)

include hregistry hgranted

theorem call_meets {i : UInt32} {argc : UInt16} {name : String}
    (hpool : program.Pools i (.string name))
    (hname : Callable setting.host.registry declared name) :
    Keeps (AllBacked setting declared) (Blames setting program declared (.call i argc))
      (perform setting program (.call i argc)) := by
  have hcall (args : List Value) : Keeps (AllBacked setting declared)
      (Blames setting program declared (.call i argc)) (ofRun (Run.call setting name args)) := by
    intro m hm
    have h := Run.call_meets hregistry hgranted hname args m.ledger hm
    rcases hr : Run.call setting name args m.ledger with ⟨v, l⟩ | ⟨e, l⟩ <;> rw [hr] at h
    · rw [ofRun_of_ok hr]
      exact h
    · rw [ofRun_of_error hr]
      exact ⟨h.1, fun hname => absurd hname h.2⟩
  rw [perform, Program.nameConstant_eq hpool, ofExcept_ok_bind]
  exact ((Quiet.popMany _).meets _).bind fun args => (hcall args).bind fun v =>
    (Quiet.push v).meets _

/-- Every instruction of a checked program keeps all records backed, and can fail because of a name
only if it uses the name. -/
theorem step_meets {op : Op}
    (hop : ∀ i argc, op = .call i argc →
      ∃ name, program.Pools i (.string name) ∧ Callable setting.host.registry declared name) :
    Keeps (AllBacked setting declared) (Blames setting program declared op)
      (step setting program op) := by
  have hperform : Keeps (AllBacked setting declared) (Blames setting program declared op)
      (perform setting program op) := by
    cases op with
    | loadName i => exact loadName_meets i
    | storeName i => exact storeName_meets i
    | call i argc =>
      obtain ⟨name, hpool, hname⟩ := hop i argc rfl
      exact call_meets hregistry hgranted hpool hname
    | _ => exact (perform_quiet setting program (by nofun) (by nofun) (by nofun)).meets _
  have hadvance : Quiet (advance : Exec σ Unit) := Quiet.get.bind fun _ => .jumpTo _
  rw [step_eq]
  exact ((Quiet.charge _).meets _).bind fun _ => (hadvance.meets _).bind fun _ => hperform

variable (hcalls : ∀ offset i argc, program.At offset (.call i argc) →
  ∃ name, program.Pools i (.string name) ∧ Callable setting.host.registry declared name)

include hcalls

/-- A run of a checked program keeps all records backed. -/
theorem execute_backed (n : Nat) {m : Machine σ} (hm : AllBacked setting declared m) :
    AllBacked setting declared (reached (execute setting program n m)) := by
  have hmeets : Meets (AllBacked setting declared)
      (Halt.Leaves (AllBacked setting declared) fun _ => AllBacked setting declared)
      (execute setting program n m) := by
    refine execute_meets_at (fun before op hop hbefore => ?_) n m hm
    have hstep := (step_meets hregistry hgranted
      fun i argc hcall => hcalls before.pc i argc (hcall ▸ hop)).imp fun _ _ h => h.1
    exact hstep before hbefore
  rcases hr : execute setting program n m with ⟨v, m'⟩ | ⟨e | _, m'⟩ <;> rw [hr] at hmeets <;>
    exact hmeets

/-- A run of a checked program that fails because of a name gets to an instruction that uses the
name. -/
theorem execute_byName {n : Nat} {m m' : Machine σ} (hm : AllBacked setting declared m) {e : Error}
    (h : execute setting program n m = .error (.fail e) m') (he : e.ByName) :
    ∃ name, e = .notDefined name ∧ ∃ k before op,
      execute setting program k m = .error .unfinished before ∧ program.At before.pc op ∧
        op.UsesName program name ∧ step setting program op before = .error e m' := by
  obtain ⟨k, before, op, hk, hop, hfails⟩ := exists_step_of_execute_fail h
  have hbefore : AllBacked setting declared before := by
    have hbacked := execute_backed hregistry hgranted hcalls k hm
    rwa [hk] at hbacked
  have hstep := step_meets hregistry hgranted
    (fun i argc hcall => hcalls before.pc i argc (hcall ▸ hop)) before hbefore
  rw [hfails] at hstep
  obtain ⟨name, heq, huses⟩ := hstep.2 he
  exact ⟨name, heq, k, before, op, hk, hop, huses, hfails⟩

end Checked

end Machine

theorem exists_of_failure? {r : EStateM.Result Halt (Machine σ) Value} {e : Error}
    (h : failure? Halt.error? r = some e) : ∃ m, r = .error (.fail e) m := by
  rcases r with ⟨v, m⟩ | ⟨e' | _, m⟩
  · cases h
  · cases h
    exact ⟨m, rfl⟩
  · cases h

/-- What a run does with the permissions that were declared for its program. -/
structure Authorized (setting : Setting ι σ) (program : Program) (declared : Permissions)
    (bindings : Table Value) (l : Ledger σ) (n : Nat) : Prop where
  /-- It does not end because a permission is missing. -/
  permitted (name permission : String) :
    failure? Halt.error? (runProgram setting n program bindings l) ≠
      some (.permissionDenied name permission)
  /-- It does not end because a function is not defined: an error about an undefined name comes from
  an instruction, reached after some number of others, that reads the name or gives it a new
  value. -/
  defined {name : String} :
    failure? Halt.error? (runProgram setting n program bindings l) = some (.notDefined name) →
    ∃ k before op, runProgram setting k program bindings l = .error .unfinished before ∧
      program.At before.pc op ∧ op.UsesName program name ∧
      Machine.step setting program op before =
        .error (.notDefined name) (reached (runProgram setting n program bindings l))
  /-- Every record is of a registered capability whose permission is declared. -/
  backed : ∀ r ∈ (reached (runProgram setting n program bindings l)).ledger.calls,
    Backed setting declared r

/-- Every call of a compiled program is of a built-in function or of a registered capability whose
permission was declared. So, with the same capabilities and at least the declared permissions, no
run of the program ends because of a call that lacks its permission or names no function, and every
record is of a capability whose permission was declared. -/
theorem compile_callable {level : UInt8} {registry : Registry ι} {script : Script}
    {declared : Permissions} {program : Program} (hregistry : registry.Reachable)
    (hcompile : compile level registry script declared = .ok program) :
    (∀ offset i argc, program.At offset (.call i argc) →
      ∃ name, program.Pools i (.string name) ∧ Callable registry declared name) ∧
    ∀ setting : Setting ι σ, setting.host.registry = registry →
      (∀ permission, declared.allows permission = true →
        setting.granted.allows permission = true) →
      ∀ allowance bindings cancelled state,
        Authorized setting program declared bindings (.start cancelled state) allowance := by
  have hcode : program.CallsOnly (Callable registry declared) 0 program.code.size := by
    rw [compile] at hcompile
    rcases hscript : compileScript level registry script declared with fault | compiled
    · rw [hscript] at hcompile
      cases hcompile
    · rw [hscript] at hcompile
      obtain rfl : compiled = program := Except.ok.inj hcompile
      exact (callsOnly_of_compileScript hscript).imp fun _ => checkCall_eq_ok_iff.mp
  have hcalls (offset : Nat) (i : UInt32) (argc : UInt16) (hop : program.At offset (.call i argc)) :
      ∃ name, program.Pools i (.string name) ∧ Callable registry declared name :=
    hcode offset i argc (Nat.zero_le _) (Array.getElem?_eq_some_iff.mp hop).1 hop
  refine ⟨hcalls, fun setting hsetting hgranted allowance bindings cancelled state => ?_⟩
  subst hsetting
  have hstart : Machine.AllBacked setting declared
      (Machine.start bindings (.start cancelled state)) :=
    fun r hr => nomatch hr
  refine ⟨fun name permission h => ?_, fun {name} h => ?_,
    Machine.execute_backed hregistry hgranted hcalls allowance hstart⟩
  · obtain ⟨m, hrun⟩ := exists_of_failure? h
    obtain ⟨name, heq, -⟩ := Machine.execute_byName hregistry hgranted hcalls hstart hrun trivial
    cases heq
  · obtain ⟨m, hrun⟩ := exists_of_failure? h
    obtain ⟨_, heq, hfails⟩ :=
      Machine.execute_byName hregistry hgranted hcalls hstart hrun trivial
    cases heq
    rw [hrun]
    exact hfails

/-- A capability that shows a balance. -/
def Capability.balance : Capability Unit where
  subsystem := "ledger"
  function := "balance"
  permission := "ledger:read"
  implementation := ()

/-- A host whose balance grows with each look at it. The permission to change the ledger is granted
besides that to read it. -/
def Setting.teller (registry : Registry Unit) : Setting Unit Nat where
  limits := {}
  host := ⟨registry, fun _ _ n => (⟨.ok (.integer (.ofNat n)), false⟩, n + 1)⟩
  granted := .ofList ["ledger:read", "ledger:write"]
  clock := ""

/-- A text that calls a built-in function and a capability, and reads a name that is not bound. -/
def balanceText : String :=
  "while missing < 1 \x7b print(ledger.balance(1 + 2)) \x7d"

theorem compile_callable_balance : ∃ registry script program,
    (Registry.empty : Registry Unit).register .balance = .ok registry ∧
    parse "main" balanceText = .ok script ∧
    compile 1 registry script (.ofList ["ledger:read"]) = .ok program ∧
    (∀ offset i argc, program.At offset (.call i argc) →
      ∃ name, program.Pools i (.string name) ∧
        Callable registry (.ofList ["ledger:read"]) name) ∧
    ∀ allowance bindings, Authorized (.teller registry) program (.ofList ["ledger:read"]) bindings
      (.start false 0) allowance := by
  have hcheck : ((Registry.empty : Registry Unit).register .balance).toOption.any (fun registry =>
      (parse "main" balanceText).toOption.any fun script =>
        (compile 1 registry script (.ofList ["ledger:read"])).toOption.any fun _ => true) =
      true := by
    decide +kernel
  obtain ⟨registry, hregister, hcheck⟩ := exists_ok_of_check hcheck
  obtain ⟨script, hparse, hcheck⟩ := exists_ok_of_check hcheck
  obtain ⟨program, hcompile, -⟩ := exists_ok_of_check hcheck
  have hregistry : registry.Reachable := .register .empty hregister
  have hgranted (permission : String)
      (h : (Permissions.ofList ["ledger:read"]).allows permission = true) :
      (Setting.teller registry).granted.allows permission = true := by
    have hdeclared : Permissions.ofList ["ledger:read"] = ⟨["ledger:read"]⟩ := by decide
    obtain rfl : permission = "ledger:read" := by simpa [hdeclared, Permissions.allows] using h
    change (Permissions.ofList ["ledger:read", "ledger:write"]).allows "ledger:read" = true
    decide
  obtain ⟨hcalls, hruns⟩ := compile_callable hregistry hcompile
  exact ⟨registry, script, program, hregister, hparse, hcompile, hcalls, fun allowance bindings =>
    hruns (.teller registry) rfl hgranted allowance bindings false 0⟩

end Covenant
