import Covenant.Engine
import Covenant.Proofs.Ledger
import Covenant.Proofs.Slots

/-!
# What evaluation leaves of the scopes around it

However an evaluation ends, it closes the frames that it opened, and what it changes in the others
can be read off the expression: an assignment changes the innermost binding of its name, and a
declaration outside of blocks adds to the innermost frame. A write goes to the first frame that
binds the name, so it leaves alone what is bound further out.

## Main definitions

* `Scopes.binding?` : the binding of a name in a certain frame.
* `Scopes.Written` : scopes that differ in one binding.
* `Expr.Assigns`, `Expr.Declares` : the names an expression may give a value to.
* `Scopes.Confined` : what changed is confined to given names.
* `Scopes.Scoped` : what the evaluation of an expression leaves of the scopes.

## Main results

* `eval_confines` : an evaluation changes no more than the names its expression writes.
* `items_declared` : what a block declares first, it does not change outside.
* `evaluation_scoped` : every evaluation leaves the scopes around it as they are to be.
-/

namespace Covenant

/-! ### Bindings by frame -/

namespace Scopes

variable {α : Type}

/-- The binding of a name in the frame with so many frames above it. -/
def binding? (s : Scopes α) (i : Nat) (name : String) : Option α :=
  s.frames[i]?.bind (·[name]?)

theorem depth_eq (s : Scopes α) : s.depth = s.frames.length := by
  simp [depth, frames]

theorem depth_pop {s : Scopes α} {n : Nat} (h : s.depth = n + 1 + 1) : s.pop.depth = n + 1 := by
  simp only [depth, pop, List.length_tail] at h ⊢
  omega

/-- Closing a frame brings the others one nearer. -/
theorem binding?_pop {s : Scopes α} {n : Nat} (h : s.depth = n + 1 + 1) (i : Nat)
    (name : String) : s.pop.binding? i name = s.binding? (i + 1) name := by
  obtain ⟨_ | ⟨frame, rest⟩, globals⟩ := s
  · simp [depth] at h
  · rfl

/-! ### Writes -/

/-- The second scopes are the first with one binding written, in a frame that is there. -/
structure Written (k : Nat) (name : String) (a : α) (s s' : Scopes α) : Prop where
  depth : s'.depth = s.depth
  binding : ∀ i x, s'.binding? i x = if i = k ∧ x = name then some a else s.binding? i x

theorem written_of_frames {s s' : Scopes α} {k : Nat} (frame : Frame α) {name : String} {a : α}
    (hk : s.frames[k]? = some frame) (h : s'.frames = s.frames.set k (frame.insert name a)) :
    Written k name a s s' := by
  refine ⟨by rw [depth_eq, depth_eq, h, List.length_set], fun i x => ?_⟩
  have hlt : k < s.frames.length := (List.getElem?_eq_some_iff.mp hk).1
  rw [binding?, binding?, h, List.getElem?_set]
  by_cases hi : k = i
  · subst hi
    rw [if_pos rfl, if_pos hlt, hk]
    simp only [Option.bind_some, Frame.getElem?_insert, true_and, eq_comm (a := name)]
  · rw [if_neg hi, if_neg fun hx => hi hx.1.symm]

theorem define_written (s : Scopes α) (name : String) (a : α) :
    Written 0 name a s (s.define name a) := by
  obtain ⟨_ | ⟨frame, rest⟩, globals⟩ := s
  · exact written_of_frames globals rfl rfl
  · exact written_of_frames frame rfl rfl

/-- A new value goes to the first of the frames that binds the name. -/
theorem exists_of_setIn? {name : String} {a : α} {frames frames' : List (Frame α)}
    (h : setIn? name a frames = some frames') :
    ∃ k frame, frames[k]? = some frame ∧ frame[name]?.isSome ∧
      (∀ i < k, frames[i]?.bind (·[name]?) = none) ∧
      frames' = frames.set k (frame.insert name a) := by
  induction frames generalizing frames' with
  | nil => cases h
  | cons frame rest ih =>
    rw [setIn?, Frame.contains_eq] at h
    split_ifs at h with hbound
    · cases h
      exact ⟨0, frame, rfl, hbound, fun i hi => absurd hi (Nat.not_lt_zero i), rfl⟩
    · obtain ⟨rest', hrest, rfl⟩ := Option.map_eq_some_iff.mp h
      obtain ⟨k, found, hk, hfound, hbefore, rfl⟩ := ih hrest
      refine ⟨k + 1, found, hk, hfound, fun i hi => ?_, rfl⟩
      cases i with
      | zero => exact Option.not_isSome_iff_eq_none.mp hbound
      | succ i => exact hbefore i (Nat.lt_of_succ_lt_succ hi)

theorem setIn?_eq_none {name : String} {a : α} {frames : List (Frame α)}
    (h : setIn? name a frames = none) (i : Nat) : frames[i]?.bind (·[name]?) = none := by
  induction frames generalizing i with
  | nil => rfl
  | cons frame rest ih =>
    rw [setIn?, Frame.contains_eq] at h
    split_ifs at h with hbound
    cases i with
    | zero => exact Option.not_isSome_iff_eq_none.mp hbound
    | succ i => exact ih (Option.map_eq_none_iff.mp h) i

/-- A new value goes to the innermost binding of the name. -/
theorem exists_of_set {s s' : Scopes α} {name : String} {a : α} (h : s.set name a = .ok s') :
    ∃ k, (s.binding? k name).isSome ∧ (∀ i < k, s.binding? i name = none) ∧
      Written k name a s s' := by
  obtain ⟨inner, globals⟩ := s
  rw [set] at h
  split at h
  · rename_i inner' hinner
    cases h
    obtain ⟨k, frame, hk, hbound, hbefore, rfl⟩ := exists_of_setIn? hinner
    have hlt : k < inner.length := (List.getElem?_eq_some_iff.mp hk).1
    have hframes (i : Nat) (hi : i ≤ k) : (inner ++ [globals])[i]? = inner[i]? :=
      List.getElem?_append_left (by omega)
    refine ⟨k, ?_, fun i hi => ?_, written_of_frames frame ?_ ?_⟩
    · rw [binding?, frames, hframes k (Nat.le_refl k), hk]
      exact hbound
    · rw [binding?, frames, hframes i (Nat.le_of_lt hi)]
      exact hbefore i hi
    · rw [frames, hframes k (Nat.le_refl k), hk]
    · exact (List.set_append_left _ _ hlt).symm
  · rename_i hinner
    rw [Frame.contains_eq] at h
    split_ifs at h with hbound
    cases h
    refine ⟨inner.length, ?_, fun i hi => ?_, written_of_frames globals ?_ ?_⟩
    · simpa [binding?, frames] using hbound
    · rw [binding?, frames, List.getElem?_append_left hi]
      exact setIn?_eq_none hinner i
    · simp [frames]
    · simp [frames]

end Scopes

/-- An assignment gives the name's innermost binding a new value, or adds a global binding from the
global frame. -/
theorem Scopes.exists_of_assign {s s' : Scopes Value} {name : String} {a : Value}
    (h : s.assign name a = .ok s') :
    ∃ k, (k = 0 ∨ (s.binding? k name).isSome) ∧ (∀ i < k, s.binding? i name = none) ∧
      Written k name a s s' := by
  rw [assign] at h
  split_ifs at h with hnew
  · cases h
    exact ⟨0, .inl rfl, fun i hi => absurd hi (Nat.not_lt_zero i), define_written s name a⟩
  · obtain ⟨k, hbound, hbefore, hwritten⟩ := exists_of_set h
    exact ⟨k, .inr hbound, hbefore, hwritten⟩

/-! ### The names an expression writes -/

namespace Expr

/-- An assignment to the name is among the nodes. -/
def Assigns (name : String) (e : Expr) : Prop :=
  ∃ value, .assign name value ∈ e.walk

/-- A declaration of the name is among the nodes outside of blocks. -/
inductive Declares (name : String) : Expr → Prop
  | here (value : Expr) : Declares name (.declare name value)
  | part {e part : Expr} (hblock : ∀ items, e ≠ .block items) (hpart : part ∈ e.children)
      (h : Declares name part) : Declares name e

theorem Assigns.of_children {name : String} {e part : Expr} (hpart : part ∈ e.children)
    (h : part.Assigns name) : e.Assigns name :=
  h.imp fun _ hvalue => mem_walk_of_mem_children hpart hvalue

theorem assigns_self (name : String) (value : Expr) : (assign name value).Assigns name :=
  ⟨value, mem_walk_self _⟩

/-- A declaration assigns what its initializer does. -/
theorem Assigns.of_declare {name other : String} {value : Expr}
    (h : (declare other value).Assigns name) : value.Assigns name := by
  obtain ⟨assigned, h⟩ := h
  rw [walk_eq] at h
  exact ⟨assigned, by simpa [children] using h⟩

end Expr

/-! ### Confined changes -/

/-- Changes of scopes that keep the frames, and give new values to names `A` and to names `D` of the
innermost frame only. No binding is lost, and none changes that lies behind another of its name. -/
structure Scopes.Confined (A D : String → Prop) (s s' : Scopes Value) : Prop where
  depth : s'.depth = s.depth
  names : ∀ i x, 0 < i → (s'.binding? i x).isSome = (s.binding? i x).isSome
  kept : ∀ i x, ¬ A x → (i = 0 → ¬ D x) → s'.binding? i x = s.binding? i x
  stays : ∀ i x, (s.binding? i x).isSome → (s'.binding? i x).isSome
  behind : ∀ i j x, i < j → (s.binding? i x).isSome → s'.binding? j x = s.binding? j x

namespace Scopes

variable {A D : String → Prop} {s s' s'' : Scopes Value}

namespace Confined

theorem refl (s : Scopes Value) : Confined A D s s :=
  ⟨rfl, fun _ _ _ => rfl, fun _ _ _ _ => rfl, fun _ _ => id, fun _ _ _ _ _ => rfl⟩

theorem trans (h : Confined A D s s') (h' : Confined A D s' s'') : Confined A D s s'' where
  depth := h'.depth.trans h.depth
  names i x hi := (h'.names i x hi).trans (h.names i x hi)
  kept i x hA hD := (h'.kept i x hA hD).trans (h.kept i x hA hD)
  stays i x hx := h'.stays i x (h.stays i x hx)
  behind i j x hij hx := (h'.behind i j x hij (h.stays i x hx)).trans (h.behind i j x hij hx)

theorem mono {A' D' : String → Prop} (h : Confined A D s s') (hA : ∀ x, A x → A' x)
    (hD : ∀ x, D x → D' x) : Confined A' D' s s' :=
  { h with kept := fun i x hA' hD' => h.kept i x (mt (hA x) hA') fun hi => mt (hD x) (hD' hi) }

/-- A write is confined if its name may be written in that frame, and in none before it is bound. -/
theorem of_written {k : Nat} {name : String} {a : Value} (h : Written k name a s s')
    (hname : A name ∨ k = 0 ∧ D name) (hplace : k = 0 ∨ (s.binding? k name).isSome)
    (hbefore : ∀ i < k, s.binding? i name = none) : Confined A D s s' where
  depth := h.depth
  names i x hi := by
    rw [h.binding]
    split_ifs with hx
    · obtain ⟨rfl, rfl⟩ := hx
      rw [hplace.resolve_left (Nat.ne_of_gt hi)]
      rfl
    · rfl
  kept i x hA hD := by
    rw [h.binding, if_neg]
    rintro ⟨rfl, rfl⟩
    obtain hAx | ⟨hi, hDx⟩ := hname
    · exact hA hAx
    · exact hD hi hDx
  stays i x hx := by
    rw [h.binding]
    split_ifs
    · rfl
    · exact hx
  behind i j x hij hx := by
    rw [h.binding, if_neg]
    rintro ⟨rfl, rfl⟩
    rw [hbefore i hij] at hx
    cases hx

/-- Inside of a frame of its own, a change may add any names to that frame. -/
theorem framed {D' : String → Prop} (h : Confined A D' s.push s') : Confined A D s s'.pop := by
  have hdepth : s'.depth = s.inner.length + 1 + 1 := h.depth
  have hpop := binding?_pop hdepth
  refine ⟨depth_pop hdepth, fun i x _ => ?_, fun i x hA _ => ?_, fun i x hx => ?_,
    fun i j x hij hx => ?_⟩
  · rw [hpop]
    exact h.names (i + 1) x (Nat.succ_pos i)
  · rw [hpop]
    exact h.kept (i + 1) x hA fun hi => absurd hi (Nat.succ_ne_zero i)
  · rw [hpop]
    exact h.stays (i + 1) x hx
  · rw [hpop]
    exact h.behind (i + 1) (j + 1) x (Nat.succ_lt_succ hij) hx

end Confined

end Scopes

/-! ### Evaluations that leave the scopes alone -/

namespace Eval

variable {ι σ α β : Type}

/-- However the evaluation ends, the scopes are those before. -/
def KeepsScopes (x : Eval σ α) : Prop :=
  ∀ w, (reached (x w)).scopes = w.scopes

namespace KeepsScopes

theorem ofRun (x : Run σ α) : KeepsScopes (ofRun x) := by
  rintro ⟨scopes, ledger⟩
  simp only [Eval.ofRun]
  cases x ledger <;> rfl

theorem ofExcept (result : Except Error α) : KeepsScopes (ofExcept result : Eval σ α) :=
  fun w => congrArg World.scopes (ofExcept_reached result w)

theorem readName (name : String) : KeepsScopes (readName name : Eval σ Value) :=
  fun w => ofExcept (w.scopes.get name) w

theorem checkScope (limits : Limits) : KeepsScopes (checkScope limits : Eval σ Unit) :=
  fun w => ofRun (Run.checkScopeDepth limits w.scopes.depth) w

/-- What follows is not reached, or begins with the same scopes. -/
theorem bind_scopes {x : Eval σ α} (hx : KeepsScopes x) (f : α → Eval σ β) (w : World σ) :
    (reached ((x >>= f) w)).scopes = w.scopes ∨
      ∃ a l, reached ((x >>= f) w) = reached (f a ⟨w.scopes, l⟩) := by
  have hkept := hx w
  rcases hr : x w with ⟨a, scopes, l⟩ | ⟨e, w₁⟩
  · rw [hr] at hkept
    cases hkept
    exact .inr ⟨a, l, by rw [bind_of_ok hr]⟩
  · rw [hr] at hkept
    exact .inl (by rw [bind_of_error hr]; exact hkept)

theorem bind {x : Eval σ α} {f : α → Eval σ β} (hx : KeepsScopes x)
    (hf : ∀ a, KeepsScopes (f a)) : KeepsScopes (x >>= f) := by
  intro w
  obtain h | ⟨a, l, h⟩ := hx.bind_scopes f w
  · exact h
  · rw [h]
    exact hf a ⟨w.scopes, l⟩

theorem enter (setting : Setting ι σ) (depth : Nat) : KeepsScopes (enter setting depth) :=
  (ofRun _).bind fun _ => ofRun _

end KeepsScopes

/-- An evaluation in a scope of its own leaves the scopes alone, or does what it does with one more
frame, which is then closed. -/
theorem inScope_scopes (limits : Limits) (x : Eval σ α) (w : World σ) :
    (reached (inScope limits x w)).scopes = w.scopes ∨
      ∃ l, (reached (inScope limits x w)).scopes =
        (reached (x ⟨w.scopes.push, l⟩)).scopes.pop := by
  rw [inScope_eq]
  obtain h | ⟨_, l, h⟩ := (KeepsScopes.ofRun (Run.checkpoint limits)).bind_scopes
    (fun _ => framed (checkScope limits >>= fun _ => x)) w
  · exact .inl h
  rw [h, framed, reached_mapState]
  obtain h | ⟨_, l, h⟩ := (KeepsScopes.checkScope limits).bind_scopes (fun _ => x)
    ⟨w.scopes.push, l⟩
  · exact .inl (by simp only [h]; rfl)
  · exact .inr ⟨l, by rw [h]⟩

/-! ### Evaluations that confine what they change -/

/-- However the evaluation ends, what has changed in the scopes is confined to given names. -/
def Confines (A D : String → Prop) (x : Eval σ α) : Prop :=
  ∀ w : World σ, w.scopes.Confined A D (reached (x w)).scopes

variable {A D : String → Prop}

theorem KeepsScopes.confines {x : Eval σ α} (hx : KeepsScopes x) : Confines A D x := by
  intro w
  rw [hx w]
  exact .refl w.scopes

namespace Confines

theorem pure (a : α) : Confines A D (pure a : Eval σ α) :=
  fun w => .refl w.scopes

theorem bind {x : Eval σ α} {f : α → Eval σ β} (hx : Confines A D x)
    (hf : ∀ a, Confines A D (f a)) : Confines A D (x >>= f) := by
  intro w
  have h := hx w
  rcases hr : x w with ⟨a, w₁⟩ | ⟨e, w₁⟩
  · rw [hr] at h
    rw [bind_of_ok hr]
    exact h.trans (hf a w₁)
  · rw [hr] at h
    rw [bind_of_error hr]
    exact h

theorem mono {A' D' : String → Prop} {x : Eval σ α} (hx : Confines A D x)
    (hA : ∀ x, A x → A' x) (hD : ∀ x, D x → D' x) : Confines A' D' x :=
  fun w => (hx w).mono hA hD

theorem define {name : String} (hname : D name) (value : Value) :
    Confines A D (define name value : Eval σ Unit) :=
  fun w => .of_written (w.scopes.define_written name value) (.inr ⟨rfl, hname⟩) (.inl rfl)
    fun i hi => absurd hi (Nat.not_lt_zero i)

theorem assign {name : String} (hname : A name) (value : Value) :
    Confines A D (assign name value : Eval σ Unit) := by
  intro w
  rw [assign_eq]
  cases h : w.scopes.assign name value with
  | error e => exact .refl w.scopes
  | ok scopes =>
    obtain ⟨k, hplace, hbefore, hwritten⟩ := Scopes.exists_of_assign h
    exact .of_written hwritten (.inl hname) hplace hbefore

theorem inScope {D' : String → Prop} {x : Eval σ α} (hx : Confines A D' x) (limits : Limits) :
    Confines A D (inScope limits x) := by
  intro w
  obtain h | ⟨l, h⟩ := inScope_scopes limits x w
  · rw [h]
    exact .refl w.scopes
  · rw [h]
    exact (hx ⟨w.scopes.push, l⟩).framed

theorem truth {x : Eval σ Value} (hx : Confines A D x) (context : String) :
    Confines A D (truth context x) :=
  hx.bind fun _ => (KeepsScopes.ofExcept _).confines

theorem loopBody {x : Eval σ Value} (hx : Confines A D x) : Confines A D (loopBody x) := by
  intro w
  rw [loopBody_eq, reached_takeJump]
  exact hx w

theorem repeatWhile {x : Eval σ Bool} (hx : Confines A D x) (n : Nat) :
    Confines A D (repeatWhile x n) := by
  induction n with
  | zero => exact fun w => .refl w.scopes
  | succ n ih =>
    refine hx.bind fun goesOn => ?_
    cases goesOn with
    | true => exact ih
    | false => exact .pure _

theorem round {test : Option (Eval σ Value)} {body : Eval σ Value}
    (htest : ∀ t ∈ test, Confines A D t) (hbody : Confines A D body) (limits : Limits) :
    Confines A D (round limits test body) := by
  refine (KeepsScopes.ofRun _).confines.bind fun _ => .bind ?_ fun goesOn => ?_
  · cases test with
    | none => exact .pure _
    | some t => exact (htest t rfl).truth _
  · cases goesOn with
    | true => exact hbody.loopBody
    | false => exact .pure _

theorem collect {xs : List (Eval σ Value)} (hxs : ∀ x ∈ xs, Confines A D x)
    (done : List Value) : Confines A D (collect done xs) := by
  induction xs generalizing done with
  | nil => exact .pure _
  | cons x rest ih =>
    obtain ⟨hx, hrest⟩ := List.forall_mem_cons.mp hxs
    exact hx.bind fun _ => ih hrest _

theorem inTurn {xs : List (Eval σ Value)} (hxs : ∀ x ∈ xs, Confines A D x)
    (last : Value) : Confines A D (inTurn last xs) := by
  induction xs generalizing last with
  | nil => exact .pure _
  | cons x rest ih =>
    obtain ⟨hx, hrest⟩ := List.forall_mem_cons.mp hxs
    exact hx.bind fun _ => ih hrest _

theorem gather {entries : List (String × Eval σ Value)}
    (hentries : ∀ entry ∈ entries, Confines A D entry.2) (done : Table Value) :
    Confines A D (gather done entries) := by
  induction entries generalizing done with
  | nil => exact .pure _
  | cons entry rest ih =>
    obtain ⟨hentry, hrest⟩ := List.forall_mem_cons.mp hentries
    exact hentry.bind fun _ => ih hrest _

end Confines

end Eval

/-! ### Constructs -/

section Constructs

open Eval

variable {ι σ : Type} (setting : Setting ι σ) (allowance : Nat)

/-- A construct other than a block, whose parts confine what they change to the names of the whole
expression. -/
theorem evalNode_confines {A D : String → Prop} {part : Expr → Eval σ Value} {e : Expr}
    (hblock : ∀ items, e ≠ .block items) (hparts : ∀ c ∈ e.children, Confines A D (part c))
    (hassign : ∀ name value, e = .assign name value → A name)
    (hdeclare : ∀ name value, e = .declare name value → D name) :
    Confines A D (evalNode setting allowance part e) := by
  cases e with
  | literal value => exact .pure _
  | ref name => exact (KeepsScopes.readName name).confines
  | binary left op right =>
    have hleft := hparts left (by simp [Expr.children])
    have hright := hparts right (by simp [Expr.children])
    simp only [evalNode]
    split
    · refine (hleft.truth _).bind fun a => ?_
      cases op.decides a with
      | true => exact .pure _
      | false => exact (hright.truth _).bind fun _ => .pure _
    · exact hleft.bind fun _ => hright.bind fun _ => (KeepsScopes.ofExcept _).confines
  | unary op operand =>
    exact (hparts operand (by simp [Expr.children])).bind fun _ =>
      (KeepsScopes.ofExcept _).confines
  | call name args =>
    exact (Confines.collect (List.forall_mem_map.mpr hparts) _).bind fun _ =>
      (KeepsScopes.ofRun _).confines
  | block items => exact absurd rfl (hblock items)
  | cond test yes no =>
    refine ((hparts test (by simp [Expr.children])).truth _).bind fun flag => ?_
    cases flag with
    | true => exact hparts yes (by simp [Expr.children])
    | false =>
      cases no with
      | none => exact .pure _
      | some e => exact hparts e (by simp [Expr.children])
  | loop test body =>
    refine (Confines.repeatWhile (.round ?_ (hparts body (by simp [Expr.children])) _) _).bind
      fun _ => .pure _
    intro x hx
    obtain ⟨t, rfl, rfl⟩ := Option.map_eq_some_iff.mp hx
    exact hparts t (by simp [Expr.children])
  | assign target value =>
    exact (hparts value (by simp [Expr.children])).bind fun a =>
      (Confines.assign (hassign target value rfl) a).bind fun _ => .pure _
  | declare name value =>
    exact (hparts value (by simp [Expr.children])).bind fun a =>
      (Confines.define (hdeclare name value rfl) a).bind fun _ => .pure _
  | object entries =>
    refine (Confines.gather (List.forall_mem_map.mpr fun entry hentry => ?_) _).bind
      fun _ => .pure _
    exact hparts entry.2 (List.mem_map_of_mem hentry)
  | array items =>
    exact (Confines.collect (List.forall_mem_map.mpr hparts) _).bind fun _ => .pure _
  | property target name =>
    exact (hparts target (by simp [Expr.children])).bind fun _ =>
      (KeepsScopes.ofExcept _).confines
  | index target position =>
    exact (hparts target (by simp [Expr.children])).bind fun _ =>
      (hparts position (by simp [Expr.children])).bind fun _ => (KeepsScopes.ofExcept _).confines
  | jump j => exact fun w => .refl w.scopes

/-- An evaluation changes no more than the names that its expression writes. -/
theorem eval_confines (e : Expr) (depth : Nat) :
    Confines (e.Assigns ·) (e.Declares ·) (eval setting allowance depth e) := by
  induction e using Expr.childrenInd generalizing depth with
  | node e ih =>
    have hassigns (c : Expr) (hc : c ∈ e.children) (x : String) : c.Assigns x → e.Assigns x :=
      .of_children hc
    rw [eval_eq]
    refine (KeepsScopes.enter setting (depth + 1)).confines.bind fun _ => ?_
    by_cases hblock : ∃ items, e = .block items
    · obtain ⟨items, rfl⟩ := hblock
      -- Whatever the items declare is bound in the frame of the block.
      have hitems : ∀ c ∈ items, Confines ((Expr.block items).Assigns ·) (fun _ => True)
          (eval setting allowance (depth + 1) c) := fun c hc =>
        (ih c hc (depth + 1)).mono (hassigns c hc) fun _ _ => trivial
      exact (Confines.inTurn (List.forall_mem_map.mpr hitems) _).inScope _
    · rw [not_exists] at hblock
      refine evalNode_confines setting allowance hblock (fun c hc => ?_) ?_ ?_
      · exact (ih c hc (depth + 1)).mono (hassigns c hc) fun x => .part hblock hc
      · rintro name value rfl
        exact Expr.assigns_self name value
      · rintro name value rfl
        exact .here value

/-- Items in turn keep the frames, and names only in the innermost one are added. -/
theorem items_confines (items : List Expr) (last : Value) (depth : Nat) :
    Confines (fun _ => True) (fun _ => True)
      (inTurn last (items.map (eval setting allowance depth))) :=
  .inTurn (List.forall_mem_map.mpr fun e _ => (eval_confines setting allowance e depth).mono
    (fun _ _ => trivial) fun _ _ => trivial) last

/-- A block leaves the scopes alone, or does with one more frame what its items do, and closes
it. -/
theorem eval_block_scopes (items : List Expr) (depth : Nat) (w : World σ) :
    (reached (eval setting allowance depth (.block items) w)).scopes = w.scopes ∨
      ∃ l, (reached (eval setting allowance depth (.block items) w)).scopes =
        (reached (inTurn .null (items.map (eval setting allowance (depth + 1)))
          ⟨w.scopes.push, l⟩)).scopes.pop := by
  rw [eval_eq]
  obtain h | ⟨_, l, h⟩ := (KeepsScopes.enter setting (depth + 1)).bind_scopes
    (fun _ => evalNode setting allowance (eval setting allowance (depth + 1)) (.block items)) w
  · exact .inl h
  · rw [h]
    exact inScope_scopes setting.limits _ ⟨w.scopes, l⟩

/-- What the items of a block leave of the frames behind the innermost one, the block leaves of the
frames around it. -/
theorem eval_block_binding {γ : Type} (f : Option Value → γ) (items : List Expr) (depth : Nat)
    (w : World σ) (i : Nat) (x : String)
    (h : ∀ w' : World σ,
      f ((reached (inTurn .null (items.map (eval setting allowance (depth + 1)))
        w')).scopes.binding? (i + 1) x) = f (w'.scopes.binding? (i + 1) x)) :
    f ((reached (eval setting allowance depth (.block items) w)).scopes.binding? i x) =
      f (w.scopes.binding? i x) := by
  obtain hscopes | ⟨l, hscopes⟩ := eval_block_scopes setting allowance items depth w
  · rw [hscopes]
  · have hdepth := (items_confines setting allowance items .null (depth + 1)
      ⟨w.scopes.push, l⟩).depth
    rw [hscopes, Scopes.binding?_pop hdepth, h]
    rfl

/-- A declaration that has been evaluated binds its name in the innermost frame. -/
theorem eval_declare_binds {x : String} {value : Expr} {depth : Nat} {w w' : World σ} {a : Value}
    (h : eval setting allowance depth (.declare x value) w = .ok a w') :
    (w'.scopes.binding? 0 x).isSome := by
  rw [eval_eq] at h
  obtain ⟨_, w₁, -, h⟩ := exists_of_bind_eq_ok h
  obtain ⟨_, w₂, -, h⟩ := exists_of_bind_eq_ok h
  cases h
  show ((w₂.scopes.define x a).binding? 0 x).isSome
  rw [(w₂.scopes.define_written x a).binding, if_pos ⟨rfl, rfl⟩]
  rfl

/-- Items that begin with a declaration leave every binding of its name behind the innermost frame,
if the initializer does not assign to it: once it is declared, it is found in the innermost
frame. -/
theorem items_declared {x : String} {value : Expr} (hx : ¬ value.Assigns x) (items : List Expr)
    (last : Value) (depth : Nat) (w : World σ) (i : Nat) :
    (reached (inTurn last ((.declare x value :: items).map (eval setting allowance depth))
      w)).scopes.binding? (i + 1) x = w.scopes.binding? (i + 1) x := by
  have hkept := (eval_confines setting allowance (.declare x value) depth w).kept (i + 1) x
    (mt Expr.Assigns.of_declare hx) fun hi => absurd hi (Nat.succ_ne_zero i)
  rw [List.map_cons, inTurn]
  rcases hr : eval setting allowance depth (.declare x value) w with ⟨a, w₁⟩ | ⟨e, w₁⟩
  · have hbound := eval_declare_binds setting allowance hr
    rw [hr] at hkept
    rw [bind_of_ok hr]
    exact ((items_confines setting allowance items a depth w₁).behind 0 (i + 1) x
      (Nat.succ_pos i) hbound).trans hkept
  · rw [hr] at hkept
    rw [bind_of_error hr]
    exact hkept

end Constructs

/-! ### What is left of the scopes -/

/-- What the evaluation of an expression leaves of the scopes around it: the frames, the names of
all but the innermost, or of all around a block, and the values of names that it does not write. A
block that begins with a declaration leaves what is bound to its name outside. -/
structure Scopes.Scoped (e : Expr) (s s' : Scopes Value) : Prop where
  depth : s'.depth = s.depth
  names : ∀ i x, 0 < i → (s'.binding? i x).isSome = (s.binding? i x).isSome
  block : ∀ items, e = .block items → ∀ i x, (s'.binding? i x).isSome = (s.binding? i x).isSome
  kept : ∀ i x, ¬ e.Assigns x → (i = 0 → ¬ e.Declares x) → s'.binding? i x = s.binding? i x
  restored : ∀ x value items, e = .block (.declare x value :: items) → ¬ value.Assigns x →
    ∀ i, s'.binding? i x = s.binding? i x

section Results

variable {ι σ : Type}

theorem eval_scoped (setting : Setting ι σ) (allowance depth : Nat) (e : Expr) (w : World σ) :
    w.scopes.Scoped e (reached (eval setting allowance depth e w)).scopes := by
  have hconfined := eval_confines setting allowance e depth w
  refine ⟨hconfined.depth, hconfined.names, ?_, hconfined.kept, ?_⟩
  · rintro items rfl i x
    refine eval_block_binding setting allowance Option.isSome items depth w i x fun w' => ?_
    exact (items_confines setting allowance items .null (depth + 1) w').names (i + 1) x
      (Nat.succ_pos i)
  · rintro x value items rfl hx i
    exact eval_block_binding setting allowance id _ depth w i x fun w' =>
      items_declared setting allowance hx items .null (depth + 1) w' i

/-- The world in which the owner finds an evaluation is that which it has reached. -/
theorem Engine.endingOf_world (r : EStateM.Result Exit (World σ) Value) :
    (Engine.endingOf r).2 = reached r := by
  rcases r with ⟨v, w⟩ | ⟨j | e | _, w⟩ <;> rfl

/-- Every evaluation, however it ends, leaves the scopes around it as they are to be: with a value,
a jump or an error, inside of other expressions and for the owner of the scopes. -/
theorem evaluation_scoped :
    (∀ (setting : Setting ι σ) (allowance depth : Nat) (e : Expr) (w : World σ),
      w.scopes.Scoped e (reached (eval setting allowance depth e w)).scopes) ∧
    ∀ (engine : Engine ι) (around : Surroundings ι σ) (options : Options) (e : Expr)
      (scopes : Scopes Value) (state : σ),
      scopes.Scoped e (engine.evaluate around options e scopes state).2.1 := by
  refine ⟨eval_scoped, fun engine around options e scopes state => ?_⟩
  simp only [Engine.evaluate, Engine.endingOf_world]
  exact eval_scoped _ _ 0 e ⟨scopes, .start options.cancelled state⟩

end Results

end Covenant
