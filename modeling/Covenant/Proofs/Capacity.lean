import Covenant.Proofs.Constants
import Covenant.Proofs.Slots
import Covenant.Proofs.Validation

/-!
# When a script has a program

The code of a script has fields of fixed width: offsets and indices of constants have 32 bits, while
slots, frames and counts of arguments have 16. A script with fewer nodes than 16 bits can count
needs no more at any level of optimization. So it has a program exactly if no statement is nested
too deep and every function called anywhere in it may be called.

Every node takes room for a bounded number of instructions and constants and for at most one frame
or name, and the induction on the expression adds these up.

## Main definitions

* `Expr.Occurs` : an expression stands somewhere in another one.
* `Script.size` : the number of nodes in a script.
* `Emit.Room` : the room that a layout has left.
* `Emit.Takes` : an emission that succeeds wherever there is so much room, and takes no more.

## Main results

* `Expr.occurs_iff_mem_walk` : the traversal finds every node.
* `Expr.size_fold_le` : folding makes nothing larger.
* `Emit.fits` : the room that an expression needs.
* `compile_succeeds_iff` : which scripts of that size have a program.
-/

namespace Covenant

/-! ### Nodes of expressions -/

namespace Expr

/-- The first expression is the second one or stands somewhere in it. -/
inductive Occurs (node : Expr) : Expr → Prop
  | self : Occurs node node
  | left {left op right} : Occurs node left → Occurs node (binary left op right)
  | right {left op right} : Occurs node right → Occurs node (binary left op right)
  | operand {op operand} : Occurs node operand → Occurs node (unary op operand)
  | arg {name args arg} : arg ∈ args → Occurs node arg → Occurs node (call name args)
  | item {items item} : item ∈ items → Occurs node item → Occurs node (block items)
  | test {test yes no} : Occurs node test → Occurs node (cond test yes no)
  | yes {test yes no} : Occurs node yes → Occurs node (cond test yes no)
  | no {test yes no} : Occurs node no → Occurs node (cond test yes (some no))
  | loopTest {test body} : Occurs node test → Occurs node (loop (some test) body)
  | body {test body} : Occurs node body → Occurs node (loop test body)
  | assigned {target value} : Occurs node value → Occurs node (assign target value)
  | declared {name value} : Occurs node value → Occurs node (declare name value)
  | entry {entries entry} : entry ∈ entries → Occurs node entry.2 → Occurs node (object entries)
  | element {items item} : item ∈ items → Occurs node item → Occurs node (array items)
  | owner {target name} : Occurs node target → Occurs node (property target name)
  | indexed {target position} : Occurs node target → Occurs node (index target position)
  | position {target position} : Occurs node position → Occurs node (index target position)

/-- What stands in a part stands in the whole. -/
theorem Occurs.of_mem_children {node part e : Expr} (hpart : part ∈ e.children)
    (h : Occurs node part) : Occurs node e := by
  cases e with
  | literal | ref | jump => cases hpart
  | unary => exact .operand (List.mem_singleton.mp hpart ▸ h)
  | assign => exact .assigned (List.mem_singleton.mp hpart ▸ h)
  | declare => exact .declared (List.mem_singleton.mp hpart ▸ h)
  | property => exact .owner (List.mem_singleton.mp hpart ▸ h)
  | call => exact .arg hpart h
  | block => exact .item hpart h
  | array => exact .element hpart h
  | object =>
    obtain ⟨entry, hentry, rfl⟩ := List.mem_map.mp hpart
    exact .entry hentry h
  | binary =>
    rcases List.mem_pair.mp hpart with rfl | rfl
    · exact .left h
    · exact .right h
  | index =>
    rcases List.mem_pair.mp hpart with rfl | rfl
    · exact .indexed h
    · exact .position h
  | cond test yes no =>
    simp only [children, List.mem_cons, Option.mem_toList] at hpart
    rcases hpart with rfl | rfl | rfl
    · exact .test h
    · exact .yes h
    · exact .no h
  | loop test body =>
    simp only [children, List.mem_append, Option.mem_toList, List.mem_singleton] at hpart
    rcases hpart with rfl | rfl
    · exact .loopTest h
    · exact .body h

/-- The traversal finds what stands in an expression, and nothing else. -/
theorem occurs_iff_mem_walk {node e : Expr} : Occurs node e ↔ node ∈ e.walk := by
  constructor
  · intro h
    induction h with
    | self => exact mem_walk_self node
    | arg hmem _ ih | item hmem _ ih | element hmem _ ih => exact mem_walk_of_mem_children hmem ih
    | entry hmem _ ih => exact mem_walk_of_mem_children (List.mem_map_of_mem hmem) ih
    | left _ ih | right _ ih | operand _ ih | test _ ih | yes _ ih | no _ ih | loopTest _ ih
    | body _ ih | assigned _ ih | declared _ ih | owner _ ih | indexed _ ih | position _ ih =>
      refine mem_walk_of_mem_children ?_ ih
      simp [children]
  · intro h
    induction e using childrenInd with
    | node e ih =>
      rw [walk_eq, List.mem_cons, List.mem_flatMap] at h
      rcases h with rfl | ⟨part, hpart, hnode⟩
      · exact .self
      · exact .of_mem_children hpart (ih part hpart hnode)

/-! ### Sizes -/

theorem size_pos (e : Expr) : 0 < e.size := by
  rw [size_eq]
  exact Nat.succ_pos _

theorem length_le_sizeAll (es : List Expr) : es.length ≤ sizeAll es := by
  induction es with
  | nil => exact Nat.le_refl _
  | cons e rest ih =>
    have hpos := e.size_pos
    simp only [List.length_cons, sizeAll]
    omega

theorem size_le_sizeAll {e : Expr} {es : List Expr} (h : e ∈ es) : e.size ≤ sizeAll es := by
  induction es with
  | nil => cases h
  | cons first rest ih =>
    rw [sizeAll]
    rcases List.mem_cons.mp h with rfl | h
    · exact Nat.le_add_right _ _
    · exact Nat.le_add_left_of_le (ih h)

theorem sizeAll_map_le {f : Expr → Expr} {es : List Expr} (h : ∀ e ∈ es, (f e).size ≤ e.size) :
    sizeAll (es.map f) ≤ sizeAll es := by
  induction es with
  | nil => exact Nat.le_refl _
  | cons e rest ih =>
    rw [List.forall_mem_cons] at h
    exact Nat.add_le_add h.1 (ih h.2)

/-- Folding makes an expression no larger. -/
theorem size_fold_le (e : Expr) : e.fold.size ≤ e.size := by
  induction e using childrenInd with
  | node e ih =>
    have hparts : sizeAll (e.mapParts fold).children ≤ sizeAll e.children := by
      rw [children_mapParts]
      exact sizeAll_map_le ih
    rw [fold_eq, e.size_eq]
    rcases (e.mapParts fold).reduce_cases with heq | ⟨value, heq⟩ | hpart
    · rw [heq, size_eq]
      exact Nat.succ_le_succ hparts
    · rw [heq]
      exact Nat.succ_le_succ (Nat.zero_le _)
    · exact Nat.le_succ_of_le (Nat.le_trans (size_le_sizeAll hpart) hparts)

end Expr

/-- The number of nodes in a script. -/
def Script.size (script : Script) : Nat :=
  Expr.sizeAll (script.statements.map (·.expression))

theorem Script.size_fold_le (script : Script) : script.fold.size ≤ script.size := by
  have hmap : script.fold.statements.map (·.expression) =
      (script.statements.map (·.expression)).map Expr.fold := by
    simp [Script.fold, Function.comp_def]
  rw [size, hmap]
  exact Expr.sizeAll_map_le fun e _ => e.size_fold_le

/-! ### Room for code -/

theorem Scopes.lookup?_le {α : Type} {S : Scopes α} {name : String} {hops : Nat} {a : α}
    (h : S.lookup? name = some (hops, a)) : hops ≤ S.inner.length := by
  have hin (frames : List (Frame α)) (above : Nat)
      (h : lookupIn? name frames above = some (hops, a)) : hops ≤ above + frames.length := by
    induction frames generalizing above with
    | nil => cases h
    | cons frame rest ih =>
      rw [lookupIn?] at h
      split at h
      · cases h
        exact Nat.le_add_right _ _
      · have := ih _ h
        simp only [List.length_cons]
        omega
  unfold lookup? at h
  split at h
  · rename_i found hfound
    cases h
    simpa using hin _ _ hfound
  · obtain ⟨_, -, hpair⟩ := Option.map_eq_some_iff.mp h
    cases hpair
    exact Nat.le_refl _

theorem Scopes.innermost_mem_frames {α : Type} (S : Scopes α) : S.innermost ∈ S.frames := by
  obtain ⟨_ | ⟨frame, rest⟩, globals⟩ := S <;> simp [innermost, frames]

namespace Emit

variable {α β : Type}

/-- A layout with room for so many further constants, and for so many further frames and names. -/
structure Room (values nodes : Nat) (L : Layout) : Prop where
  pool : L.pool.size + values ≤ UInt32.size
  depth : L.scopes.inner.length + nodes < UInt16.size
  names : ∀ frame ∈ L.scopes.frames, frame.size + nodes < UInt16.size

theorem Room.mono {values nodes values' nodes' : Nat} {L : Layout} (h : Room values nodes L)
    (hvalues : values' ≤ values) (hnodes : nodes' ≤ nodes) : Room values' nodes' L := by
  refine ⟨Nat.le_trans (Nat.add_le_add_left hvalues _) h.pool,
    Nat.lt_of_le_of_lt (Nat.add_le_add_left hnodes _) h.depth, fun frame hframe => ?_⟩
  exact Nat.lt_of_le_of_lt (Nat.add_le_add_left hnodes _) (h.names frame hframe)

/-- A new name is one more in the innermost frame. -/
theorem Room.define {values nodes : Nat} {L : Layout} {name : String}
    (h : Room values (nodes + 1) L) (hname : L.scopes.innermost[name]? = none) (slot : UInt16) :
    Room values nodes { L with scopes := L.scopes.define name slot } := by
  obtain ⟨⟨inner, globals⟩, pool⟩ := L
  obtain ⟨hpool, hdepth, hnames⟩ := h
  have hinsert {frame : Frame UInt16} (hframe : frame.size + (nodes + 1) < UInt16.size)
      (hnone : frame[name]? = none) : (frame.insert name slot).size + nodes < UInt16.size := by
    rw [Frame.size_insert_of_none hnone]
    omega
  cases inner with
  | nil =>
    refine ⟨hpool, Nat.lt_of_succ_lt hdepth, fun frame hframe => ?_⟩
    cases List.mem_singleton.mp hframe
    exact hinsert (hnames globals (List.mem_singleton_self _)) hname
  | cons top rest =>
    refine ⟨hpool, Nat.lt_of_succ_lt hdepth, fun frame hframe => ?_⟩
    rcases List.mem_cons.mp hframe with rfl | hframe
    · exact hinsert (hnames top List.mem_cons_self) hname
    · exact Nat.lt_of_succ_lt (hnames frame (List.mem_cons_of_mem _ hframe))

/-- Wherever there is so much room, an emission succeeds, with a result as described, and leaves all
the room beyond. -/
def Takes (values nodes : Nat) (x : EmitM α) (Q : α → Prop) : Prop :=
  ∀ v n L, Room (v + values) (n + nodes) L → ∃ a L', x L = .ok (a, L') ∧ Q a ∧ Room v n L'

namespace Takes

variable {values nodes values' nodes' : Nat} {x : EmitM α} {Q : α → Prop} {R : β → Prop}

theorem mono (h : Takes values nodes x Q) (hvalues : values ≤ values') (hnodes : nodes ≤ nodes') :
    Takes values' nodes' x Q :=
  fun v n L hL => h v n L (hL.mono (Nat.add_le_add_left hvalues v) (Nat.add_le_add_left hnodes n))

theorem imp {Q' : α → Prop} (h : Takes values nodes x Q) (hQ : ∀ a, Q a → Q' a) :
    Takes values nodes x Q' := by
  intro v n L hL
  obtain ⟨a, L', hx, ha, hL'⟩ := h v n L hL
  exact ⟨a, L', hx, hQ a ha, hL'⟩

theorem pure {a : α} (h : Q a) : Takes values nodes (pure a : EmitM α) Q :=
  fun _ _ L hL => ⟨a, L, rfl, h, hL.mono (Nat.le_add_right _ _) (Nat.le_add_right _ _)⟩

/-- What the first emission leaves is there for the second. -/
theorem bind {f : α → EmitM β} (hx : Takes values nodes x Q) (hvalues : values ≤ values')
    (hnodes : nodes ≤ nodes')
    (hf : ∀ a, Q a → Takes (values' - values) (nodes' - nodes) (f a) R) :
    Takes values' nodes' (x >>= f) R := by
  intro v n L hL
  obtain ⟨a, L₁, ha, hQ, hL₁⟩ := hx (v + (values' - values)) (n + (nodes' - nodes)) L
    (hL.mono (by omega) (by omega))
  obtain ⟨b, L₂, hb, hR, hL₂⟩ := hf a hQ v n L₁ hL₁
  exact ⟨b, L₂, bind_eq_ok.mpr ⟨a, L₁, ha, hb⟩, hR, hL₂⟩

/-- What takes nothing leaves everything. -/
theorem free {f : α → EmitM β} (hx : Takes 0 0 x Q) (hf : ∀ a, Q a → Takes values nodes (f a) R) :
    Takes values nodes (x >>= f) R :=
  hx.bind (Nat.zero_le _) (Nat.zero_le _) hf

theorem get {f : Layout → EmitM β} (hf : ∀ L, Room 0 0 L → Takes values nodes (f L) R) :
    Takes values nodes (get >>= f) R :=
  fun v n L hL => hf L (hL.mono (Nat.zero_le _) (Nat.zero_le _)) v n L hL

theorem target {n : Nat} (h : n < UInt32.size) : Takes values nodes (target n) fun _ => True := by
  rw [Emit.target, if_pos h]
  exact pure trivial

theorem count {n : Nat} (fault : CompileFault) (h : n < UInt32.size) :
    Takes values nodes (count n fault) fun _ => True := by
  rw [Emit.count, if_pos h]
  exact pure trivial

theorem shortCount {n : Nat} (fault : CompileFault) (h : n < UInt16.size) :
    Takes values nodes (shortCount n fault) fun _ => True := by
  rw [Emit.shortCount, if_pos h]
  exact pure trivial

/-- A value takes the room of one constant at most. -/
theorem pooled (value : Value) : Takes 1 0 (pooled value) fun _ => True := by
  intro v n L hL
  have hpool := hL.pool
  rw [Emit.pooled]
  cases hfind : L.pool.findIdx? (·.identical value) with
  | some i =>
    have hi := (Array.findIdx?_eq_some_iff_getElem.mp hfind).1
    have hcount : Takes 1 0 (Emit.count i .poolOverflow) fun _ => True :=
      count .poolOverflow (by omega)
    obtain ⟨index, L', hindex, -, hL'⟩ := hcount v n L hL
    exact ⟨index, L', get_bind_eq_ok.mpr (by rw [hfind]; exact hindex), trivial, hL'⟩
  | none =>
    have hroom : Room v n { L with pool := L.pool.push value } :=
      ⟨by simp only [Array.size_push]; omega, hL.depth, hL.names⟩
    have hcount : Takes 0 0 (Emit.count L.pool.size .poolOverflow) fun _ => True :=
      count .poolOverflow (by omega)
    obtain ⟨index, L', hindex, -, hL'⟩ := hcount v n _ hroom
    refine ⟨index, L', get_bind_eq_ok.mpr ?_, trivial, hL'⟩
    rw [hfind]
    exact bind_eq_ok.mpr ⟨(), _, rfl, hindex⟩

theorem resolve (name : String) : Takes 0 0 (resolve name) fun _ => True := by
  refine get fun L hL => ?_
  cases hlookup : L.scopes.lookup? name with
  | none => exact pure trivial
  | some found =>
    have hhops : found.1 < UInt16.size :=
      Nat.lt_of_le_of_lt (Scopes.lookup?_le hlookup) hL.depth
    exact (shortCount _ hhops).free fun _ _ => pure trivial

/-- A new name takes a slot of the innermost frame. -/
theorem slotFor (name : String) : Takes 0 1 (slotFor name) fun _ => True := by
  intro v n L hL
  have hlocal := hL.names _ L.scopes.innermost_mem_frames
  rw [Emit.slotFor]
  cases hbound : L.scopes.innermost[name]? with
  | some slot =>
    refine ⟨slot, L, get_bind_eq_ok.mpr ?_, trivial, hL.mono (Nat.le_refl _) (Nat.le_succ _)⟩
    rw [hbound]
    rfl
  | none =>
    have hcount : Takes 0 0 (Emit.shortCount L.scopes.localCount .tooManyBindings) fun _ => True :=
      shortCount .tooManyBindings (by unfold Scopes.localCount; omega)
    obtain ⟨slot, L₁, hslot, -, hL₁⟩ := hcount v (n + 1) L hL
    obtain ⟨-, rfl⟩ := shortCount_eq_ok hslot
    refine ⟨slot, { L₁ with scopes := L₁.scopes.define name slot }, get_bind_eq_ok.mpr ?_, trivial,
      hL.define hbound slot⟩
    rw [hbound]
    exact bind_eq_ok.mpr ⟨slot, L₁, hslot, rfl⟩

/-- A block takes a frame. -/
theorem push : Takes 0 1 (modifyScopes Scopes.push) fun _ => True := by
  intro v n L hL
  have hdepth := hL.depth
  refine ⟨(), { L with scopes := L.scopes.push }, rfl, trivial, hL.pool, ?_, fun frame hframe => ?_⟩
  · rw [Scopes.push, List.length_cons]
    omega
  · rcases List.mem_cons.mp hframe with rfl | hframe
    · rw [Std.TreeMap.size_emptyc]
      omega
    · exact Nat.lt_of_le_of_lt (by omega) (hL.names frame hframe)

theorem pop : Takes 0 0 (modifyScopes Scopes.pop) fun _ => True := by
  intro v n L hL
  obtain ⟨⟨inner, globals⟩, pool⟩ := L
  refine ⟨(), _, rfl, trivial, hL.pool, ?_, fun frame hframe => hL.names frame ?_⟩
  · have := hL.depth
    simp only [Scopes.pop, List.length_tail] at this ⊢
    omega
  · rcases List.mem_append.mp hframe with hframe | hframe
    · exact List.mem_append_left _ (List.mem_of_mem_tail hframe)
    · exact List.mem_append_right _ hframe

end Takes

/-! ### What code takes -/

theorem takes_pooledName (name : String) : Takes 1 0 (pooledName name) fun _ => True :=
  .pooled _

theorem takes_emitRef (name : String) : Takes 1 0 (emitRef name) fun _ => True := by
  refine (Takes.resolve name).free fun found _ => ?_
  cases found with
  | some place => exact .pure trivial
  | none => exact (takes_pooledName name).bind (by omega) (by omega) fun _ _ => .pure trivial

theorem takes_emitAssign (name : String) : Takes 1 0 (emitAssign name) fun _ => True := by
  refine (Takes.resolve name).free fun found _ => ?_
  cases found with
  | some place => exact .pure trivial
  | none =>
    refine (takes_pooledName name).bind (by omega) (by omega) fun index _ => .get fun L _ => ?_
    split <;> exact .pure trivial

theorem takes_emitDeclare (name : String) : Takes 1 1 (emitDeclare name) fun _ => True := by
  refine .get fun L _ => ?_
  split
  · exact (takes_pooledName name).bind (by omega) (by omega) fun _ _ => .pure trivial
  · exact (Takes.slotFor name).bind (by omega) (by omega) fun _ _ => .pure trivial

/-- Where all offsets have 32 bits, the code of an expression takes a bounded number of constants,
frames and names for every node, and it has less than eight instructions for every node. -/
def Fits (e : Expr) : Prop :=
  ∀ base, base + 8 * e.size ≤ UInt32.size →
    Takes (2 * e.size - 1) e.size (emit base e) fun code => code.size < 8 * e.size

section Parts

variable {base : Nat}

theorem takes_emitAll {es : List Expr} (hes : ∀ e ∈ es, Fits e) {code : Array Op}
    (hbase : base + code.size + 8 * Expr.sizeAll es ≤ UInt32.size) :
    Takes (2 * Expr.sizeAll es) (Expr.sizeAll es) (emitAll base code es) fun code' =>
      code'.size ≤ code.size + 8 * Expr.sizeAll es := by
  induction es generalizing code with
  | nil => exact .pure (Nat.le_add_right _ _)
  | cons e rest ih =>
    rw [List.forall_mem_cons] at hes
    rw [Expr.sizeAll] at hbase ⊢
    refine (hes.1 _ (by omega)).bind (by omega) (by omega) fun more hmore => ?_
    have hsize : (code ++ more).size < code.size + 8 * e.size := by
      rw [Array.size_append]
      omega
    refine ((ih hes.2 (by omega)).mono (by omega) (by omega)).imp fun code' hcode' => ?_
    omega

theorem takes_emitItems {es : List Expr} (hes : ∀ e ∈ es, Fits e) {code : Array Op}
    (hbase : base + code.size + 8 * Expr.sizeAll es < UInt32.size) :
    Takes (2 * Expr.sizeAll es) (Expr.sizeAll es) (emitItems base code es) fun code' =>
      code'.size ≤ code.size + 8 * Expr.sizeAll es := by
  induction es generalizing code with
  | nil => exact .pure (Nat.le_add_right _ _)
  | cons e rest ih =>
    rw [List.forall_mem_cons] at hes
    rw [Expr.sizeAll] at hbase ⊢
    refine (hes.1 _ (by omega)).bind (by omega) (by omega) fun more hmore => ?_
    have hsize : (code.push .pop ++ more).size ≤ code.size + 8 * e.size := by
      rw [Array.size_append, Array.size_push]
      omega
    refine ((ih hes.2 (by omega)).mono (by omega) (by omega)).imp fun code' hcode' => ?_
    omega

theorem takes_emitEntries {entries : List (String × Expr)}
    (hes : ∀ e ∈ entries.map Prod.snd, Fits e) {code : Array Op}
    (hbase : base + code.size + 8 * Expr.sizeAll (entries.map Prod.snd) < UInt32.size) :
    Takes (2 * Expr.sizeAll (entries.map Prod.snd)) (Expr.sizeAll (entries.map Prod.snd))
      (emitEntries base code entries) fun code' =>
        code'.size ≤ code.size + 8 * Expr.sizeAll (entries.map Prod.snd) := by
  induction entries generalizing code with
  | nil => exact .pure (Nat.le_add_right _ _)
  | cons entry rest ih =>
    rw [List.map_cons, List.forall_mem_cons] at hes
    rw [List.map_cons, Expr.sizeAll] at hbase ⊢
    have hpos := entry.2.size_pos
    refine (takes_pooledName entry.1).bind (by omega) (by omega) fun key _ => ?_
    have hkey : (code.push (.constant key)).size = code.size + 1 := Array.size_push _
    refine (hes.1 _ (by omega)).bind (by omega) (by omega) fun more hmore => ?_
    have hsize : (code.push (.constant key) ++ more).size ≤ code.size + 8 * entry.2.size := by
      rw [Array.size_append]
      omega
    refine ((ih hes.2 (by omega)).mono (by omega) (by omega)).imp fun code' hcode' => ?_
    omega

/-- One instruction behind the code of an expression. -/
theorem takes_push {part : Expr} {x : EmitM Op} (hpart : Fits part)
    (hx : Takes 1 1 x fun _ => True) (hbase : base + 8 * (part.size + 1) ≤ UInt32.size) :
    Takes (2 * (part.size + 1) - 1) (part.size + 1)
      (do let code ← emit base part; return code.push (← x)) fun code =>
        code.size < 8 * (part.size + 1) := by
  have hpos := part.size_pos
  refine (hpart _ (by omega)).bind (by omega) (by omega) fun code hcode => ?_
  refine hx.bind (by omega) (by omega) fun op _ => .pure ?_
  rw [Array.size_push]
  omega

theorem fits_binary {left right : Expr} {op : BinaryOp} (hleft : Fits left) (hright : Fits right) :
    Fits (.binary left op right) := by
  intro base hbase
  rw [emit]
  simp only [Expr.size] at hbase ⊢
  have hpos := left.size_pos
  have hpos' := right.size_pos
  refine (hleft _ (by omega)).bind (by omega) (by omega) fun first hfirst => ?_
  split
  · refine (hright _ (by omega)).bind (by omega) (by omega) fun second hsecond => ?_
    refine (Takes.target (by omega)).free fun done _ => .pure ?_
    simp only [Array.size_push, Array.size_append]
    omega
  · refine (hright _ (by omega)).bind (by omega) (by omega) fun second hsecond => .pure ?_
    simp only [Array.size_push, Array.size_append]
    omega

theorem fits_index {target position : Expr} (htarget : Fits target) (hposition : Fits position) :
    Fits (.index target position) := by
  intro base hbase
  rw [emit]
  simp only [Expr.size] at hbase ⊢
  have hpos := target.size_pos
  have hpos' := position.size_pos
  refine (htarget _ (by omega)).bind (by omega) (by omega) fun first hfirst => ?_
  refine (hposition _ (by omega)).bind (by omega) (by omega) fun second hsecond => .pure ?_
  simp only [Array.size_push, Array.size_append]
  omega

theorem fits_block {items : List Expr} (hitems : ∀ e ∈ items, Fits e) : Fits (.block items) := by
  intro base hbase
  have hclose {code : Array Op} (hcode : code.size + 2 < 8 * (Expr.sizeAll items + 1)) :
      Takes 0 0 (do
        let slots ← shortCount (← get).scopes.localCount .tooManyBindings
        modifyScopes Scopes.pop
        return (#[Op.enterScope slots] ++ code).push .exitScope) fun code =>
          code.size < 8 * (Expr.sizeAll items + 1) := by
    refine .get fun L hL => ?_
    have hlocal := hL.names _ L.scopes.innermost_mem_frames
    refine (Takes.shortCount _ hlocal).free fun slots _ => Takes.pop.free fun _ _ => .pure ?_
    simp only [Array.size_push, Array.size_append, List.size_toArray, List.length_singleton]
    omega
  rw [emit]
  simp only [Expr.size] at hbase ⊢
  refine Takes.push.bind (by omega) (by omega) fun _ _ => ?_
  cases items with
  | nil =>
    refine (Takes.pooled .null).bind (by omega) (by omega) fun null _ => ?_
    exact (hclose (by simp [Expr.sizeAll])).mono (by omega) (by omega)
  | cons e rest =>
    rw [List.forall_mem_cons] at hitems
    simp only [Expr.sizeAll] at hbase hclose ⊢
    have hpos := e.size_pos
    refine (hitems.1 _ (by omega)).bind (by omega) (by omega) fun first hfirst => ?_
    refine (takes_emitItems hitems.2 (by omega)).bind (by omega) (by omega) fun code hcode => ?_
    exact (hclose (by omega)).mono (by omega) (by omega)

theorem fits_cond {test yes : Expr} {no : Option Expr} (htest : Fits test) (hyes : Fits yes)
    (hno : ∀ e ∈ no, Fits e) : Fits (.cond test yes no) := by
  intro base hbase
  rw [emit]
  have hpos := test.size_pos
  have hpos' := yes.size_pos
  cases no with
  | none =>
    simp only [Expr.size] at hbase ⊢
    refine (htest _ (by omega)).bind (by omega) (by omega) fun first hfirst => ?_
    refine (hyes _ (by omega)).bind (by omega) (by omega) fun second hsecond => ?_
    refine (Takes.pooled .null).bind (by omega) (by omega) fun null _ => ?_
    refine (Takes.pure (Q := fun code : Array Op => code.size = 1) rfl).free fun third hthird => ?_
    refine (Takes.target (by omega)).free fun toElse _ => ?_
    refine (Takes.target (by omega)).free fun toEnd _ => .pure ?_
    simp only [Array.size_push, Array.size_append]
    omega
  | some e =>
    simp only [Expr.size] at hbase ⊢
    have hpos'' := e.size_pos
    refine (htest _ (by omega)).bind (by omega) (by omega) fun first hfirst => ?_
    refine (hyes _ (by omega)).bind (by omega) (by omega) fun second hsecond => ?_
    refine (hno e rfl _ (by omega)).bind (by omega) (by omega) fun third hthird => ?_
    refine (Takes.target (by omega)).free fun toElse _ => ?_
    refine (Takes.target (by omega)).free fun toEnd _ => .pure ?_
    simp only [Array.size_push, Array.size_append]
    omega

theorem fits_loop {test : Option Expr} {body : Expr} (htest : ∀ e ∈ test, Fits e)
    (hbody : Fits body) : Fits (.loop test body) := by
  intro base hbase
  rw [emit]
  have hpos := body.size_pos
  cases test with
  | none =>
    simp only [Expr.size] at hbase ⊢
    refine (Takes.target (by omega)).free fun start _ => ?_
    refine (Takes.pure (Q := fun code : Array Op => code = #[]) rfl).free fun tested htested => ?_
    cases htested
    refine (hbody _ (by simp; omega)).bind (by omega) (by omega) fun repeated hrepeated => ?_
    refine (Takes.target (by simp; omega)).free fun done _ => ?_
    refine (Takes.pooled .null).bind (by omega) (by omega) fun null _ => .pure ?_
    simp
    omega
  | some e =>
    simp only [Expr.size] at hbase ⊢
    have hpos' := e.size_pos
    refine (Takes.target (by omega)).free fun start _ => ?_
    refine (htest e rfl _ (by omega)).bind (by omega) (by omega) fun tested htested => ?_
    refine (hbody _ (by simp; omega)).bind (by omega) (by omega) fun repeated hrepeated => ?_
    refine (Takes.target (by simp; omega)).free fun done _ => ?_
    refine (Takes.pooled .null).bind (by omega) (by omega) fun null _ => .pure ?_
    simp
    omega

end Parts

/-- The code of an expression fits if it has fewer nodes than a count of arguments can say. -/
theorem fits {e : Expr} (hsize : e.size ≤ UInt16.size) : Fits e := by
  induction e using Expr.childrenInd with
  | node e ih =>
    have hparts : ∀ part ∈ e.children, Fits part := fun part hpart =>
      ih part hpart (by have := Expr.size_le_sizeAll hpart; rw [e.size_eq] at hsize; omega)
    have hlength := Expr.length_le_sizeAll e.children
    rw [e.size_eq] at hsize
    cases e with
    | literal v =>
      intro base hbase
      refine (Takes.pooled v).bind (by simp [Expr.size]) (by simp) fun _ _ => .pure ?_
      simp [Expr.size]
    | ref name =>
      intro base hbase
      refine (takes_emitRef name).bind (by simp [Expr.size]) (by simp) fun _ _ => .pure ?_
      simp [Expr.size]
    | jump j => cases j <;> exact fun base hbase => .pure (by simp [Expr.size])
    | unary op operand =>
      exact fun base hbase => takes_push (hparts _ List.mem_cons_self) (x := pure (.unary op))
        (.pure trivial) hbase
    | property target name =>
      intro base hbase
      simp only [Expr.size] at hbase ⊢
      have hpos := target.size_pos
      refine (hparts _ List.mem_cons_self _ (by omega)).bind (by omega) (by omega)
        fun code hcode => ?_
      refine (takes_pooledName name).bind (by omega) (by omega) fun _ _ => .pure ?_
      rw [Array.size_push]
      omega
    | assign name value =>
      exact fun base hbase => takes_push (hparts _ List.mem_cons_self)
        ((takes_emitAssign name).mono (by omega) (by omega)) hbase
    | declare name value =>
      exact fun base hbase =>
        takes_push (hparts _ List.mem_cons_self) (takes_emitDeclare name) hbase
    | binary left op right =>
      exact fits_binary (hparts _ List.mem_cons_self)
        (hparts _ (List.mem_cons_of_mem _ List.mem_cons_self))
    | index target position =>
      exact fits_index (hparts _ List.mem_cons_self)
        (hparts _ (List.mem_cons_of_mem _ List.mem_cons_self))
    | call name args =>
      intro base hbase
      simp only [Expr.size, Expr.children] at hbase hlength hsize hparts ⊢
      refine (takes_emitAll hparts (by simp; omega)).bind (by omega) (by omega) fun code hcode => ?_
      refine (takes_pooledName name).bind (by omega) (by omega) fun _ _ => ?_
      refine (Takes.shortCount _ (by omega)).free fun _ _ => .pure ?_
      rw [Array.size_push]
      simp at hcode
      omega
    | array items =>
      intro base hbase
      simp only [Expr.size, Expr.children] at hbase hlength hsize hparts ⊢
      refine (takes_emitAll hparts (by simp; omega)).bind (by omega) (by omega) fun code hcode => ?_
      refine (Takes.count _ (by omega)).free fun _ _ => .pure ?_
      rw [Array.size_push]
      simp at hcode
      omega
    | object entries =>
      intro base hbase
      simp only [Expr.size, Expr.sizeEntries_eq, Expr.children, List.length_map]
        at hbase hlength hsize hparts ⊢
      refine (takes_emitEntries hparts (by simp; omega)).bind (by omega) (by omega)
        fun code hcode => ?_
      refine (Takes.count _ (by omega)).free fun _ _ => .pure ?_
      rw [Array.size_push]
      simp at hcode
      omega
    | block items => exact fits_block hparts
    | cond test yes no =>
      simp only [Expr.children, List.forall_mem_cons, Option.mem_toList] at hparts
      exact fits_cond hparts.1 hparts.2.1 hparts.2.2
    | loop test body =>
      simp only [Expr.children, List.forall_mem_append, List.forall_mem_singleton,
        Option.mem_toList] at hparts
      exact fits_loop hparts.1 hparts.2

/-- The code of statements fits if all of them together have fewer nodes than a count of arguments
can say. -/
theorem takes_emitStatements {statements : List Statement} {listing : Listing}
    (hsize : Expr.sizeAll (statements.map (·.expression)) ≤ UInt16.size)
    (hcode : listing.code.size + 8 * Expr.sizeAll (statements.map (·.expression)) < UInt32.size) :
    Takes (2 * Expr.sizeAll (statements.map (·.expression)))
      (Expr.sizeAll (statements.map (·.expression))) (emitStatements listing statements)
      fun _ => True := by
  induction statements generalizing listing with
  | nil => exact .pure trivial
  | cons s rest ih =>
    rw [List.map_cons, Expr.sizeAll] at hsize hcode ⊢
    rw [emitStatements]
    have hstatement (code : Array Op) (entries : Array SourceEntry)
        (hcode : code.size + 8 * (s.expression.size + Expr.sizeAll (rest.map (·.expression))) ≤
          UInt32.size) :
        Takes (2 * (s.expression.size + Expr.sizeAll (rest.map (·.expression))))
          (s.expression.size + Expr.sizeAll (rest.map (·.expression)))
          (do
            let more ← emit code.size s.expression
            emitStatements ⟨code ++ more, entries⟩ rest) fun _ => True := by
      refine (fits (by omega) _ (by omega)).bind (by omega) (by omega) fun more hmore => ?_
      refine (ih (by omega) ?_).mono (by omega) (by omega)
      rw [Array.size_append]
      omega
    have hentries (entries : Array SourceEntry) :
        Takes 0 0 (pure entries : EmitM (Array SourceEntry)) fun _ => True := .pure trivial
    have hfirst : (if listing.code.isEmpty then listing.code else listing.code.push .pop).size ≤
        listing.code.size + 1 := by
      split <;> simp
    cases s.location with
    | none => exact (hentries _).free fun _ _ => hstatement _ _ (by omega)
    | some location =>
      have hpos := s.expression.size_pos
      refine (Takes.target (by omega)).free fun offset _ => ?_
      exact (hentries _).free fun _ _ => hstatement _ _ (by omega)

/-- A script with fewer nodes than 16 bits can count has code. -/
theorem exists_emitScript_eq_ok {script : Script} (hsize : script.size < UInt16.size) :
    ∃ result, emitScript script ⟨.empty, #[]⟩ = .ok result := by
  have hroom : Room (0 + 2 * UInt16.size) (0 + script.size) ⟨.empty, #[]⟩ := by
    refine ⟨by decide, ?_, fun frame hframe => ?_⟩
    · simpa [Scopes.empty] using hsize
    · cases List.mem_singleton.mp hframe
      simpa [Scopes.empty] using hsize
  have htakes : Takes (2 * UInt16.size) script.size (emitScript script) fun _ => True := by
    unfold emitScript
    split
    · exact (Takes.pooled .null).bind (by decide) (Nat.zero_le _) fun _ _ => .pure trivial
    · have hcode : 8 * script.size < UInt32.size :=
        Nat.lt_trans (Nat.mul_lt_mul_of_pos_left hsize (by decide)) (by decide)
      have hstatements : Takes _ _ (emitStatements ⟨#[], #[]⟩ script.statements) _ :=
        takes_emitStatements hsize.le (by simpa [Script.size] using hcode)
      exact hstatements.mono (Nat.mul_le_mul_left 2 hsize.le) (Nat.le_refl _)
  obtain ⟨listing, L, heq, -, -⟩ := htakes 0 0 _ hroom
  exact ⟨_, heq⟩

end Emit

/-! ### Which scripts have a program -/

section Compilation

variable {ι : Type} {registry : Registry ι} {script : Script} {declared : Permissions}

/-- The calls of a script are those that stand in its statements. -/
theorem Script.mem_calls_iff {name : String} {args : List Expr} : (name, args) ∈ script.calls ↔
    ∃ s ∈ script.statements, (Expr.call name args).Occurs s.expression := by
  simp only [Script.calls, List.mem_flatMap, List.mem_filterMap, Expr.occurs_iff_mem_walk]
  refine exists_congr fun s => and_congr_right fun hs => ⟨?_, fun h => ⟨_, h, rfl⟩⟩
  rintro ⟨node, hnode, heq⟩
  cases node with
  | call =>
    cases heq
    exact hnode
  | _ => cases heq

/-- The check passes if it does for every call. -/
theorem forM_checkCall_eq_ok_iff (calls : List (String × List Expr)) :
    (calls.forM fun (name, _) => checkCall registry declared name) = .ok () ↔
      ∀ call ∈ calls, Callable registry declared call.1 := by
  induction calls with
  | nil => exact iff_of_true rfl (List.forall_mem_nil _)
  | cons call rest ih =>
    rw [List.forall_mem_cons, ← ih, ← checkCall_eq_ok_iff]
    refine bind_eq_ok_iff.trans ⟨fun ⟨_, hcall, hrest⟩ => ⟨hcall, hrest⟩, fun ⟨hcall, hrest⟩ => ?_⟩
    exact ⟨(), hcall, hrest⟩

/-- A script has a program if it is not nested too deep, all its calls may be made and what is to be
compiled has code. -/
theorem exists_compile_eq_ok {level : UInt8} : (∃ program, compile level registry script declared =
      .ok program) ↔ script.depth ≤ maxNesting ∧
    (∀ call ∈ script.calls, Callable registry declared call.1) ∧
    ∃ result, Emit.emitScript (if level = 0 then script else script.fold) ⟨.empty, #[]⟩ =
      .ok result := by
  simp only [compile_eq_ok_iff, ← forM_checkCall_eq_ok_iff, compileScript_eq_ok_iff]
  constructor
  · rintro ⟨program, hdepth, hcalls, listing, layout, hemit, -⟩
    exact ⟨hdepth, hcalls, (listing, layout), hemit⟩
  · rintro ⟨hdepth, hcalls, ⟨listing, layout⟩, hemit⟩
    exact ⟨_, hdepth, hcalls, listing, layout, hemit, rfl⟩

/-- Among the scripts with fewer nodes than 16 bits can count, those that have a program are exactly
those in which no statement is nested too deep and every function called anywhere, also where
folding removes the call, is built in or has its permission declared. The level makes no difference
to it, and compilation fails in no other way than by a compilation error. -/
theorem compile_succeeds_iff (hsize : script.size < 65536) (level : UInt8)
    (registry : Registry ι) (declared : Permissions) :
    ((∃ program, compile level registry script declared = .ok program) ↔
      (∀ s ∈ script.statements, s.expression.depth ≤ maxNesting) ∧
        ∀ s ∈ script.statements, ∀ name args, (Expr.call name args).Occurs s.expression →
          Callable registry declared name) ∧
    (∀ level', (∃ program, compile level' registry script declared = .ok program) ↔
      ∃ program, compile level registry script declared = .ok program) ∧
    ∀ e, compile level registry script declared = .error e → ∃ fault, e = .compile fault := by
  have hcode (level : UInt8) :
      ∃ result, Emit.emitScript (if level = 0 then script else script.fold) ⟨.empty, #[]⟩ =
        .ok result := by
    refine Emit.exists_emitScript_eq_ok ?_
    split
    · exact hsize
    · exact Nat.lt_of_le_of_lt script.size_fold_le hsize
  refine ⟨?_, fun level' => ?_, fun e he => ?_⟩
  · rw [exists_compile_eq_ok, ← Script.depth_le_iff, and_iff_left (hcode level)]
    refine and_congr_right fun _ => ⟨fun h s hs name args hcall => ?_, fun h call hcall => ?_⟩
    · exact h (name, args) (Script.mem_calls_iff.mpr ⟨s, hs, hcall⟩)
    · obtain ⟨s, hs, hoccurs⟩ := Script.mem_calls_iff.mp hcall
      exact h s hs call.1 call.2 hoccurs
  · rw [exists_compile_eq_ok, exists_compile_eq_ok, and_iff_left (hcode level'),
      and_iff_left (hcode level)]
  · rw [compile] at he
    cases hscript : compileScript level registry script declared with
    | ok program => rw [hscript] at he; cases he
    | error fault =>
      rw [hscript] at he
      cases he
      exact ⟨fault, rfl⟩

end Compilation

/-- A text in which folding removes a call of a capability. -/
def deadCallText : String :=
  "if false \x7b ledger.balance() \x7d else \x7b print(2 + 3) \x7d"

theorem compile_succeeds_iff_dead_call : ∃ registry script,
    (Registry.empty : Registry Unit).register .balance = .ok registry ∧
    parse "main" deadCallText = .ok script ∧ script.size < 65536 ∧
    (∀ level, ∃ program, compile level registry script (.ofList ["ledger:read"]) = .ok program) ∧
    ∀ level, ¬ ∃ program, compile level registry script .none = .ok program := by
  have hcheck : ((Registry.empty : Registry Unit).register .balance).toOption.any (fun registry =>
      (parse "main" deadCallText).toOption.any fun script => script.size < 65536 &&
        (compile 1 registry script (.ofList ["ledger:read"])).isOk &&
        !(compile 1 registry script .none).isOk) = true := by
    decide +kernel
  obtain ⟨registry, hregister, hcheck⟩ := exists_ok_of_check hcheck
  obtain ⟨script, hparse, hcheck⟩ := exists_ok_of_check hcheck
  simp only [Bool.and_eq_true, decide_eq_true_eq, Bool.not_eq_true'] at hcheck
  obtain ⟨⟨hsize, hdeclared⟩, hundeclared⟩ := hcheck
  have hsame (declared : Permissions) :=
    (compile_succeeds_iff hsize 1 registry declared).2.1
  refine ⟨registry, script, hregister, hparse, hsize, fun level => (hsame _ level).mpr ?_,
    fun level h => ?_⟩
  · cases h : compile 1 registry script (.ofList ["ledger:read"]) with
    | ok program => exact ⟨program, rfl⟩
    | error e => rw [h] at hdeclared; cases hdeclared
  · obtain ⟨program, h⟩ := (hsame _ level).mp h
    rw [h] at hundeclared
    cases hundeclared

end Covenant
