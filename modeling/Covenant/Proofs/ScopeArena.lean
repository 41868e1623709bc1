import Covenant.Proofs.Scoping
import Covenant.Scope.Arena

/-!
# Scopes as a stack of maps

Scopes are asked and changed by calls, and all that is seen of them are the answers. A stack of
finite maps says what the answers are to be. The frames of an arena answer like that stack however
the calls follow each other, because the reference of every frame is to the one just before it
(`Arena.Linked`): what comes up on the way out are the maps of the stack, from the top down.

## Main definitions

* `ScopeCall`, `ScopeAnswer` : calls on scopes and what they answer.
* `MapStack` : stacks of finite maps, with the answers that are right.
* `Arena.path` : the frames on the way out from one.
* `Arena.Linked` : each frame refers to the one before it, and the last is the innermost.

## Main results

* `Arena.lookupFrom?_eq`, `Arena.setFrom_eq`, `Arena.depthFrom_eq` : what the way out comes to.
* `Arena.Represents.perform` : a call is answered alike by an arena and by the stack it represents.
* `scopes_refine_mapStack` : all calls on an arena, or on a list of frames, are answered right.
-/

namespace Covenant

variable {α : Type}

/-! ### Calls on scopes -/

/-- The calls on scopes. -/
inductive ScopeCall (α : Type) where
  | push
  | pop
  | define (name : String) (a : α)
  | set (name : String) (a : α)
  | get (name : String)
  | lookup (name : String)
  | definesLocally (name : String)
  | localCount
  | depth
  | isGlobal

/-- What is answered to a call on scopes. -/
inductive ScopeAnswer (α : Type) where
  | done
  | written (result : Except Error Unit)
  | value (result : Except Error α)
  | binding (found : Option (Nat × α))
  | flag (b : Bool)
  | count (n : Nat)

namespace ScopeCall

variable {σ τ : Type}

/-- The answers to calls one after the other, and what the calls leave. -/
def run (perform : ScopeCall α → σ → ScopeAnswer α × σ) :
    List (ScopeCall α) → σ → List (ScopeAnswer α) × σ
  | [], s => ([], s)
  | call :: calls, s =>
    let (answer, s) := perform call s
    let (answers, s) := run perform calls s
    (answer :: answers, s)

/-- Scopes that answer each call alike, and stay related by it, answer all calls alike. -/
theorem run_related {R : σ → τ → Prop} {f : ScopeCall α → σ → ScopeAnswer α × σ}
    {g : ScopeCall α → τ → ScopeAnswer α × τ}
    (step : ∀ call s t, R s t → (f call s).1 = (g call t).1 ∧ R (f call s).2 (g call t).2)
    (calls : List (ScopeCall α)) {s : σ} {t : τ} (h : R s t) :
    (run f calls s).1 = (run g calls t).1 ∧ R (run f calls s).2 (run g calls t).2 := by
  induction calls generalizing s t with
  | nil => exact ⟨rfl, h⟩
  | cons call calls ih =>
    obtain ⟨hanswer, hnext⟩ := step call s t h
    obtain ⟨hanswers, hlast⟩ := ih hnext
    exact ⟨congrArg₂ List.cons hanswer hanswers, hlast⟩

end ScopeCall

/-! ### A stack of maps -/

theorem reverse_modify {l : List α} {i : Nat} (h : i < l.length) (f : α → α) :
    (l.modify i f).reverse = l.reverse.modify (l.length - 1 - i) f := by
  refine List.ext_getElem? fun k => ?_
  by_cases hk : k < l.length
  · have hiff : i = l.length - 1 - k ↔ l.length - 1 - i = k := by omega
    rw [List.getElem?_modify, List.getElem?_reverse (by simpa using hk), List.getElem?_reverse hk,
      List.getElem?_modify, List.length_modify]
    simp only [hiff]
  · rw [List.getElem?_eq_none (by simpa using hk), List.getElem?_eq_none (by simpa using hk)]

/-- The position of the first map that binds a name. -/
def holder? (maps : List (Frame α)) (name : String) : Option Nat :=
  maps.findIdx? (·.contains name)

/-- What the first map that binds a name binds it to, and the number of maps before it. -/
def topmost? (maps : List (Frame α)) (name : String) : Option (Nat × α) := do
  let k ← holder? maps name
  let frame ← maps[k]?
  return (k, ← frame[name]?)

/-- A stack of finite maps, the top first, that is never empty. -/
@[ext]
structure MapStack (α : Type) where
  maps : List (Frame α)
  ne_nil : maps ≠ []

namespace MapStack

/-- A single empty map. -/
def empty : MapStack α :=
  ⟨[∅], List.cons_ne_nil _ _⟩

/-- The map at the top. -/
def top (m : MapStack α) : Frame α :=
  m.maps.head m.ne_nil

/-- What a stack of maps answers to a call, and what becomes of it. -/
def perform : ScopeCall α → MapStack α → ScopeAnswer α × MapStack α
  | .push, m => (.done, ⟨∅ :: m.maps, List.cons_ne_nil _ _⟩)
  | .pop, m => (.done, if h : m.maps.tail = [] then m else ⟨m.maps.tail, h⟩)
  | .define name a, m =>
    (.done, ⟨m.maps.modifyHead (·.insert name a), by simpa using m.ne_nil⟩)
  | .set name a, m =>
    match holder? m.maps name with
    | some k => (.written (.ok ()), ⟨m.maps.modify k (·.insert name a), by simpa using m.ne_nil⟩)
    | none => (.written (.error (.notDefined name)), m)
  | .get name, m =>
    match topmost? m.maps name with
    | some (_, a) => (.value (.ok a), m)
    | none => (.value (.error (.notDefined name)), m)
  | .lookup name, m => (.binding (topmost? m.maps name), m)
  | .definesLocally name, m => (.flag (m.top.contains name), m)
  | .localCount, m => (.count m.top.size, m)
  | .depth, m => (.count m.maps.length, m)
  | .isGlobal, m => (.flag (m.maps.length == 1), m)

end MapStack

theorem holder?_cons (frame : Frame α) (maps : List (Frame α)) (name : String) :
    holder? (frame :: maps) name =
      if frame.contains name then some 0 else (holder? maps name).map (· + 1) :=
  List.findIdx?_cons

theorem topmost?_cons (frame : Frame α) (maps : List (Frame α)) (name : String) :
    topmost? (frame :: maps) name =
      match frame[name]? with
      | some a => some (0, a)
      | none => (topmost? maps name).map (Prod.map (· + 1) id) := by
  rw [topmost?, holder?_cons, Frame.contains_eq]
  cases h : frame[name]? with
  | some a => simp [h]
  | none =>
    rw [topmost?]
    cases holder? maps name with
    | none => rfl
    | some k => simp [Option.map_bind]

/-! ### The way out -/

namespace Arena

/-- The frames on the way out from one, beginning with it. -/
def path (s : Arena α) (i : Fin s.frames.size) : List (Fin s.frames.size) :=
  match _ : s.outer? i with
  | some p => i :: s.path p
  | none => [i]
termination_by i.val
decreasing_by exact lt_of_outer? ‹_›

/-- What the frames on the way out bind. -/
def mapsFrom (s : Arena α) (i : Fin s.frames.size) : List (Frame α) :=
  (s.path i).map s.bindings

variable {s : Arena α}

section Path

variable {i p : Fin s.frames.size}

theorem path_of_some (h : s.outer? i = some p) : s.path i = i :: s.path p := by
  rw [path]
  split
  · rename_i q hq
    cases h.symm.trans hq
    rfl
  · rename_i hq
    cases h.symm.trans hq

theorem path_of_none (h : s.outer? i = none) : s.path i = [i] := by
  rw [path]
  split
  · rename_i q hq
    cases h.symm.trans hq
  · rfl

theorem mapsFrom_of_some (h : s.outer? i = some p) :
    s.mapsFrom i = s.bindings i :: s.mapsFrom p := by
  rw [mapsFrom, path_of_some h, List.map_cons, mapsFrom]

theorem mapsFrom_of_none (h : s.outer? i = none) : s.mapsFrom i = [s.bindings i] := by
  rw [mapsFrom, path_of_none h, List.map_singleton]

end Path

/-- The frames on the way out are counted. -/
theorem depthFrom_eq (s : Arena α) (i : Fin s.frames.size) (depth : Nat) :
    s.depthFrom i depth + 1 = depth + (s.path i).length := by
  fun_induction depthFrom s i depth with
  | case1 i depth p h ih =>
    rw [ih, path_of_some h, List.length_cons]
    omega
  | case2 i depth h => rw [path_of_none h, List.length_singleton]

/-- The first binding on the way out is found. -/
theorem lookupFrom?_eq (s : Arena α) (name : String) (i : Fin s.frames.size) (hops : Nat) :
    s.lookupFrom? name i hops = (topmost? (s.mapsFrom i) name).map (Prod.map (hops + ·) id) := by
  fun_induction lookupFrom? s name i hops with
  | case1 i hops a ha =>
    cases h : s.outer? i with
    | some p => rw [mapsFrom_of_some h, topmost?_cons, ha]; rfl
    | none => rw [mapsFrom_of_none h, topmost?_cons, ha]; rfl
  | case2 i hops ha p h ih =>
    rw [ih, mapsFrom_of_some h, topmost?_cons, ha, Option.map_map, Prod.map_comp_map]
    simp only [Function.comp_def, Nat.add_assoc, Nat.add_comm 1]
    rfl
  | case3 i hops ha h =>
    rw [mapsFrom_of_none h, topmost?_cons, ha]
    rfl

/-- The first frame on the way out that binds the name is written. -/
theorem setFrom_eq (s : Arena α) (name : String) (a : α) (i : Fin s.frames.size) :
    s.setFrom name a i =
      match (s.path i).find? (fun j => (s.bindings j).contains name) with
      | some j => (.ok (), s.bindIn j name a)
      | none => (.error (.notDefined name), s) := by
  fun_induction setFrom s name a i with
  | case1 i hbound =>
    cases h : s.outer? i with
    | some p => simp only [path_of_some h, List.find?_cons, hbound]
    | none => simp only [path_of_none h, List.find?_cons, hbound]
  | case2 i hbound p h ih => simp only [ih, path_of_some h, List.find?_cons, hbound]
  | case3 i hbound h => simp only [path_of_none h, List.find?_cons, hbound, List.find?_nil]

/-! ### Frames linked in a line -/

/-- The innermost frame is the last, and every frame but the first refers to the one before it. -/
structure Linked (s : Arena α) : Prop where
  last : s.current.val = s.frames.size - 1
  parent (i : Nat) (h : i < s.frames.size) :
    s.frames[i].parent = if i = 0 then none else some (i - 1)

/-- The maps that the frames bind names by, the last first. -/
def maps (s : Arena α) : List (Frame α) :=
  (s.frames.toList.map (·.bindings)).reverse

theorem length_maps (s : Arena α) : s.maps.length = s.frames.size := by
  rw [maps, List.length_reverse, List.length_map, Array.length_toList]

namespace Linked

theorem size_eq (h : s.Linked) : s.frames.size = s.current.val + 1 := by
  have hlast := h.last
  have hlt := s.current.isLt
  omega

theorem outer?_eq_none_iff (h : s.Linked) (i : Fin s.frames.size) :
    s.outer? i = none ↔ i.val = 0 := by
  simp [outer?, h.parent i.val i.isLt]

theorem val_of_outer? (h : s.Linked) {i p : Fin s.frames.size} (hp : s.outer? i = some p) :
    p.val + 1 = i.val := by
  obtain ⟨q, hq, hparent, rfl⟩ := Option.pmap_eq_some_iff.mp hp
  rw [Fin.getElem_fin, h.parent i.val i.isLt] at hparent
  split_ifs at hparent
  cases hparent
  show i.val - 1 + 1 = i.val
  omega

/-- The way out comes by all frames up to the first, from the last one down. -/
theorem path_eq (h : s.Linked) (i : Fin s.frames.size) :
    (s.path i).map Fin.val = (List.range (i.val + 1)).reverse := by
  induction i using path.induct with
  | case1 i p hp ih =>
    rw [path_of_some hp, List.map_cons, ih, h.val_of_outer? hp, List.range_succ (n := i.val),
      List.reverse_append]
    rfl
  | case2 i hp =>
    rw [path_of_none hp, List.map_singleton, (h.outer?_eq_none_iff i).mp hp]
    rfl

theorem path_current (h : s.Linked) :
    (s.path s.current).map Fin.val = (List.range s.frames.size).reverse :=
  (h.path_eq s.current).trans (congrArg (fun n => (List.range n).reverse) h.size_eq.symm)

theorem length_path (h : s.Linked) : (s.path s.current).length = s.frames.size := by
  simpa using congrArg List.length h.path_current

theorem val_of_getElem?_path (h : s.Linked) {k : Nat} {j : Fin s.frames.size}
    (hj : (s.path s.current)[k]? = some j) : j.val = s.frames.size - 1 - k := by
  have hk : k < s.frames.size := h.length_path ▸ (List.getElem?_eq_some_iff.mp hj).1
  have hval : ((s.path s.current).map Fin.val)[k]? = some j.val := by
    rw [List.getElem?_map, hj]
    rfl
  rw [h.path_current, List.getElem?_reverse (by simpa using hk), List.length_range,
    List.getElem?_range (by omega)] at hval
  exact (Option.some.inj hval).symm

/-- What comes up on the way out are all maps. -/
theorem mapsFrom_eq (h : s.Linked) : s.mapsFrom s.current = s.maps := by
  refine List.ext_getElem ?_ fun k hk _ => ?_
  · rw [mapsFrom, List.length_map, h.length_path, length_maps]
  · have hpath : k < (s.path s.current).length := by simpa [mapsFrom] using hk
    have hval := h.val_of_getElem?_path (List.getElem?_eq_getElem hpath)
    simp [mapsFrom, maps, bindings, hval]

end Linked

/-! ### Calls on linked frames -/

theorem linked_empty : (empty : Arena α).Linked where
  last := rfl
  parent i h := by
    obtain rfl : i = 0 := Nat.lt_one_iff.mp h
    rfl

theorem Linked.push (h : s.Linked) : s.push.Linked where
  last := by simp [Arena.push]
  parent i hi := by
    have hsize := h.size_eq
    simp only [Arena.push, Array.getElem_push]
    split
    · exact h.parent i _
    · have hi' : i = s.current.val + 1 := by
        simp only [Arena.push, Array.size_push] at hi
        omega
      simp [hi']

theorem maps_push (s : Arena α) : s.push.maps = ∅ :: s.maps := by
  simp [push, maps]

/-- The innermost frame is closed, unless it is the global one. -/
theorem pop_cases (s : Arena α) :
    s.outer? s.current = none ∧ s.pop = s ∨
      ∃ p, s.outer? s.current = some p ∧ s.pop.current.val = p.val ∧
        s.pop.frames = s.frames.extract 0 s.current := by
  rw [pop]
  split
  · exact .inl ⟨‹_›, rfl⟩
  · exact .inr ⟨_, ‹_›, rfl, rfl⟩

theorem Linked.pop (h : s.Linked) : s.pop.Linked := by
  obtain ⟨-, hpop⟩ | ⟨p, hp, hcurrent, hframes⟩ := s.pop_cases
  · rwa [hpop]
  · have hval := h.val_of_outer? hp
    have hsize := h.size_eq
    refine ⟨?_, fun i hi => ?_⟩
    · rw [hcurrent, hframes, Array.size_extract]
      omega
    · simp only [hframes, Array.getElem_extract, Nat.zero_add]
      exact h.parent i _

theorem maps_pop (h : s.Linked) :
    s.pop.maps = if s.maps.tail = [] then s.maps else s.maps.tail := by
  have hsize := h.size_eq
  have htail : s.maps.tail.length = s.current.val := by
    rw [List.length_tail, length_maps]
    omega
  obtain ⟨hnone, hpop⟩ | ⟨p, hp, -, hframes⟩ := s.pop_cases
  · rw [hpop, if_pos]
    exact List.eq_nil_of_length_eq_zero (htail.trans ((h.outer?_eq_none_iff _).mp hnone))
  · have hval := h.val_of_outer? hp
    rw [if_neg (List.ne_nil_of_length_pos (by omega)), maps, hframes, maps, List.tail_reverse,
      List.dropLast_eq_take, List.length_map, Array.length_toList, ← h.last]
    simp [List.map_take]

theorem Linked.bindIn (h : s.Linked) (i : Fin s.frames.size) (name : String) (a : α) :
    (s.bindIn i name a).Linked where
  last := by simpa [Arena.bindIn] using h.last
  parent j hj := by
    simp only [Arena.bindIn, Array.getElem_set]
    split
    · rename_i hij
      subst hij
      exact h.parent i _
    · exact h.parent j _

theorem maps_bindIn (s : Arena α) (i : Fin s.frames.size) (name : String) (a : α) :
    (s.bindIn i name a).maps = s.maps.modify (s.frames.size - 1 - i) (·.insert name a) := by
  have hmaps : ((s.bindIn i name a).frames.toList.map (·.bindings)) =
      (s.frames.toList.map (·.bindings)).modify i (·.insert name a) := by
    refine List.ext_getElem? fun k => ?_
    by_cases hk : i.val = k
    · subst hk
      simp [Arena.bindIn, bindings]
    · simp [Arena.bindIn, hk]
  rw [maps, hmaps, maps, reverse_modify (by simp), List.length_map, Array.length_toList]

/-- The map at the top is that of the innermost frame. -/
theorem Linked.maps_eq_cons (h : s.Linked) :
    ∃ below, s.maps = s.bindings s.current :: below := by
  rw [← h.mapsFrom_eq]
  cases hp : s.outer? s.current with
  | some p => exact ⟨_, mapsFrom_of_some hp⟩
  | none => exact ⟨_, mapsFrom_of_none hp⟩

theorem Linked.maps_define (h : s.Linked) (name : String) (a : α) :
    (s.define name a).maps = s.maps.modifyHead (·.insert name a) := by
  rw [define, maps_bindIn, h.last, Nat.sub_self, List.modifyHead_eq_modify_zero]

/-- The frame that binds a name first on the way out has the topmost map that does. -/
theorem Linked.holder?_eq (h : s.Linked) (name : String) :
    holder? s.maps name = ((s.path s.current).find? fun j =>
      (s.bindings j).contains name).map fun j => s.frames.size - 1 - j.val := by
  rw [← h.mapsFrom_eq, holder?, mapsFrom, List.findIdx?_map, List.find?_eq_bind_findIdx?_getElem?]
  cases hk : (s.path s.current).findIdx? (fun j => (s.bindings j).contains name) with
  | none => exact hk
  | some k =>
    have hlt := (List.findIdx?_eq_some_iff_getElem.mp hk).1
    have hpath := List.getElem?_eq_getElem hlt
    have hval := h.val_of_getElem?_path hpath
    have hlength := h.length_path
    refine hk.trans ?_
    rw [Option.bind_some, hpath, Option.map_some, hval]
    congr 1
    omega

theorem Linked.depth_eq (h : s.Linked) : s.depth = s.maps.length := by
  have hdepth := s.depthFrom_eq s.current 1
  rw [h.length_path] at hdepth
  rw [depth, length_maps]
  omega

theorem Linked.isGlobal_eq (h : s.Linked) : s.isGlobal = (s.maps.length == 1) := by
  have hsize := h.size_eq
  rw [isGlobal, length_maps, Bool.eq_iff_iff, beq_iff_eq, beq_iff_eq]
  omega

theorem Linked.lookup?_eq (h : s.Linked) (name : String) :
    s.lookup? name = topmost? s.maps name := by
  rw [lookup?, lookupFrom?_eq, h.mapsFrom_eq]
  simp only [Nat.zero_add]
  exact congrFun Option.map_id _

theorem Linked.set_eq (h : s.Linked) (name : String) (a : α) :
    (holder? s.maps name = none ∧ s.set name a = (.error (.notDefined name), s)) ∨
      ∃ k s', holder? s.maps name = some k ∧ s.set name a = (.ok (), s') ∧ s'.Linked ∧
        s'.maps = s.maps.modify k (·.insert name a) := by
  rw [set, setFrom_eq, h.holder?_eq]
  cases (s.path s.current).find? fun j => (s.bindings j).contains name with
  | none => exact .inl ⟨rfl, rfl⟩
  | some j => exact .inr ⟨_, _, rfl, rfl, h.bindIn j name a, s.maps_bindIn j name a⟩

/-- What an arena answers to a call, and what becomes of it. -/
def perform : ScopeCall α → Arena α → ScopeAnswer α × Arena α
  | .push, s => (.done, s.push)
  | .pop, s => (.done, s.pop)
  | .define name a, s => (.done, s.define name a)
  | .set name a, s =>
    let (result, s) := s.set name a
    (.written result, s)
  | .get name, s => (.value (s.get name), s)
  | .lookup name, s => (.binding (s.lookup? name), s)
  | .definesLocally name, s => (.flag (s.definesLocally name), s)
  | .localCount, s => (.count s.localCount, s)
  | .depth, s => (.count s.depth, s)
  | .isGlobal, s => (.flag s.isGlobal, s)

/-- An arena of linked frames that bind names by the maps of a stack. -/
structure Represents (s : Arena α) (m : MapStack α) : Prop where
  linked : s.Linked
  maps : s.maps = m.maps

theorem represents_empty : (empty : Arena α).Represents .empty :=
  ⟨linked_empty, rfl⟩

theorem Represents.top_eq {m : MapStack α} (h : s.Represents m) :
    m.top = s.bindings s.current := by
  obtain ⟨below, hmaps⟩ := h.linked.maps_eq_cons
  simp only [MapStack.top, ← h.maps, hmaps, List.head_cons]

/-- A call is answered alike by an arena and by the stack of maps it represents. -/
theorem Represents.perform {m : MapStack α} (h : s.Represents m) (call : ScopeCall α) :
    (perform call s).1 = (m.perform call).1 ∧ (perform call s).2.Represents (m.perform call).2 := by
  have hlinked := h.linked
  cases call with
  | push => exact ⟨rfl, hlinked.push, by rw [Arena.perform, maps_push, h.maps]; rfl⟩
  | pop =>
    refine ⟨rfl, hlinked.pop, ?_⟩
    rw [Arena.perform, maps_pop hlinked, h.maps, MapStack.perform]
    split_ifs <;> rfl
  | define name a =>
    refine ⟨rfl, hlinked.bindIn s.current name a, ?_⟩
    rw [Arena.perform, hlinked.maps_define, h.maps]
    rfl
  | set name a =>
    simp only [Arena.perform, MapStack.perform, ← h.maps]
    obtain ⟨hholder, hset⟩ | ⟨k, s', hholder, hset, hlinked', hmaps⟩ := hlinked.set_eq name a
    · rw [hholder, hset]
      exact ⟨rfl, h⟩
    · rw [hholder, hset]
      exact ⟨rfl, hlinked', hmaps⟩
  | get name =>
    simp only [Arena.perform, MapStack.perform, get, hlinked.lookup?_eq, h.maps]
    cases topmost? m.maps name <;> exact ⟨rfl, h⟩
  | lookup name => exact ⟨by rw [Arena.perform, hlinked.lookup?_eq, h.maps]; rfl, h⟩
  | definesLocally name => exact ⟨by rw [MapStack.perform, h.top_eq]; rfl, h⟩
  | localCount => exact ⟨by rw [MapStack.perform, h.top_eq]; rfl, h⟩
  | depth => exact ⟨by rw [Arena.perform, hlinked.depth_eq, h.maps]; rfl, h⟩
  | isGlobal => exact ⟨by rw [Arena.perform, hlinked.isGlobal_eq, h.maps]; rfl, h⟩

end Arena

/-! ### A list of frames -/

namespace Scopes

variable (s : Scopes α)

theorem lookupIn?_eq (name : String) (frames : List (Frame α)) (hops : Nat) :
    lookupIn? name frames hops = (topmost? frames name).map (Prod.map (hops + ·) id) := by
  induction frames generalizing hops with
  | nil => rfl
  | cons frame rest ih =>
    rw [lookupIn?, topmost?_cons]
    cases frame[name]? with
    | some a => rfl
    | none =>
      simp only [ih, Option.map_map, Function.comp_def, Nat.add_assoc, Nat.add_comm 1]
      rfl

theorem setIn?_eq (name : String) (a : α) (frames : List (Frame α)) :
    setIn? name a frames = (holder? frames name).map (frames.modify · (·.insert name a)) := by
  induction frames with
  | nil => rfl
  | cons frame rest ih =>
    rw [setIn?, holder?_cons]
    split_ifs
    · rfl
    · rw [ih, Option.map_map, Option.map_map]
      rfl

theorem lookupIn?_append (name : String) (frames : List (Frame α)) (frame : Frame α) (hops : Nat) :
    lookupIn? name (frames ++ [frame]) hops =
      match lookupIn? name frames hops with
      | some found => some found
      | none => frame[name]?.map (hops + frames.length, ·) := by
  induction frames generalizing hops with
  | nil =>
    rw [List.nil_append, lookupIn?]
    cases h : frame[name]? <;> simp [lookupIn?, h]
  | cons other rest ih =>
    rw [List.cons_append, lookupIn?, lookupIn?]
    cases other[name]? with
    | some a => rfl
    | none => simp only [ih, List.length_cons, Nat.add_assoc, Nat.add_comm 1]

theorem setIn?_append (name : String) (a : α) (frames : List (Frame α)) (frame : Frame α) :
    setIn? name a (frames ++ [frame]) =
      match setIn? name a frames with
      | some frames' => some (frames' ++ [frame])
      | none => if frame.contains name then some (frames ++ [frame.insert name a]) else none := by
  induction frames with
  | nil => rw [List.nil_append, setIn?]; rfl
  | cons other rest ih =>
    rw [List.cons_append, setIn?, setIn?, ih]
    by_cases hother : other.contains name
    · rw [if_pos hother, if_pos hother]
      rfl
    · rw [if_neg hother, if_neg hother]
      cases setIn? name a rest with
      | some rest' => rfl
      | none => by_cases hframe : frame.contains name <;> simp [hframe]

theorem lookup?_eq (name : String) : s.lookup? name = topmost? s.frames name := by
  have happend := lookupIn?_append name s.inner s.globals 0
  simp only [lookupIn?_eq, Nat.zero_add] at happend
  rw [lookup?, lookupIn?_eq]
  simp only [Nat.zero_add]
  exact happend.symm.trans (congrFun Option.map_id _)

theorem set_eq (name : String) (a : α) :
    (holder? s.frames name = none ∧ s.set name a = .error (.notDefined name)) ∨
      ∃ k s', holder? s.frames name = some k ∧ s.set name a = .ok s' ∧
        s'.frames = s.frames.modify k (·.insert name a) := by
  have h := (setIn?_eq name a s.frames).symm.trans (setIn?_append name a s.inner s.globals)
  rw [set]
  cases hinner : setIn? name a s.inner with
  | some inner =>
    rw [hinner] at h
    obtain ⟨k, hk, hframes⟩ := Option.map_eq_some_iff.mp h
    exact .inr ⟨k, _, hk, rfl, hframes.symm⟩
  | none =>
    simp only [hinner] at h ⊢
    by_cases hglobals : s.globals.contains name = true
    · rw [if_pos hglobals] at h ⊢
      obtain ⟨k, hk, hframes⟩ := Option.map_eq_some_iff.mp h
      exact .inr ⟨k, _, hk, rfl, hframes.symm⟩
    · rw [if_neg hglobals] at h ⊢
      exact .inl ⟨Option.map_eq_none_iff.mp h, rfl⟩

/-- What a list of frames answers to a call, and what becomes of it. -/
def perform : ScopeCall α → Scopes α → ScopeAnswer α × Scopes α
  | .push, s => (.done, s.push)
  | .pop, s => (.done, s.pop)
  | .define name a, s => (.done, s.define name a)
  | .set name a, s =>
    match s.set name a with
    | .ok s => (.written (.ok ()), s)
    | .error e => (.written (.error e), s)
  | .get name, s => (.value (s.get name), s)
  | .lookup name, s => (.binding (s.lookup? name), s)
  | .definesLocally name, s => (.flag (s.definesLocally name), s)
  | .localCount, s => (.count s.localCount, s)
  | .depth, s => (.count s.depth, s)
  | .isGlobal, s => (.flag s.isGlobal, s)

theorem frames_eq_cons : ∃ below, s.frames = s.innermost :: below := by
  obtain ⟨_ | ⟨frame, rest⟩, globals⟩ := s
  · exact ⟨[], rfl⟩
  · exact ⟨rest ++ [globals], rfl⟩

theorem frames_pop : s.pop.frames = if s.frames.tail = [] then s.frames else s.frames.tail := by
  obtain ⟨_ | ⟨frame, rest⟩, globals⟩ := s
  · rfl
  · exact (if_neg (List.append_ne_nil_of_right_ne_nil rest (List.cons_ne_nil _ _))).symm

theorem frames_define (name : String) (a : α) :
    (s.define name a).frames = s.frames.modifyHead (·.insert name a) := by
  obtain ⟨_ | ⟨frame, rest⟩, globals⟩ := s <;> rfl

theorem isGlobal_eq_length : s.isGlobal = (s.frames.length == 1) := by
  obtain ⟨_ | ⟨frame, rest⟩, globals⟩ := s
  · rfl
  · simp [isGlobal, frames]

/-- A call is answered alike by a list of frames and by the stack of the same maps. -/
theorem perform_eq {s : Scopes α} {m : MapStack α} (h : s.frames = m.maps) (call : ScopeCall α) :
    (perform call s).1 = (m.perform call).1 ∧
      (perform call s).2.frames = (m.perform call).2.maps := by
  have htop : m.top = s.innermost := by
    obtain ⟨below, hframes⟩ := s.frames_eq_cons
    simp only [MapStack.top, ← h, hframes, List.head_cons]
  cases call with
  | push => exact ⟨rfl, congrArg (List.cons ∅) h⟩
  | pop =>
    refine ⟨rfl, ?_⟩
    rw [perform, frames_pop, h, MapStack.perform]
    split_ifs <;> rfl
  | define name a =>
    refine ⟨rfl, ?_⟩
    rw [perform, frames_define, h]
    rfl
  | set name a =>
    simp only [perform, MapStack.perform, ← h]
    obtain ⟨hholder, hset⟩ | ⟨k, s', hholder, hset, hframes⟩ := s.set_eq name a
    · rw [hholder, hset]
      exact ⟨rfl, h⟩
    · rw [hholder, hset]
      exact ⟨rfl, hframes⟩
  | get name =>
    simp only [perform, MapStack.perform, get, lookup?_eq, h]
    cases topmost? m.maps name <;> exact ⟨rfl, rfl⟩
  | lookup name => exact ⟨by rw [perform, lookup?_eq, h]; rfl, h⟩
  | definesLocally name => exact ⟨by rw [MapStack.perform, htop]; rfl, h⟩
  | localCount => exact ⟨by rw [MapStack.perform, htop]; rfl, h⟩
  | depth => exact ⟨by rw [perform, depth_eq, h]; rfl, h⟩
  | isGlobal => exact ⟨by rw [perform, isGlobal_eq_length, h]; rfl, h⟩

end Scopes

/-! ### All calls -/

/-- Whatever is called on an empty arena, its frames stay linked, and it answers each call as a
stack of maps does, which is never empty and holds what the frames bind. So does a list of
frames. -/
theorem scopes_refine_mapStack (calls : List (ScopeCall α)) :
    let right := ScopeCall.run MapStack.perform calls .empty
    let arena := ScopeCall.run Arena.perform calls .empty
    let frames := ScopeCall.run Scopes.perform calls .empty
    (arena.2.Linked ∧ arena.1 = right.1 ∧ arena.2.maps = right.2.maps) ∧
      frames.1 = right.1 ∧ frames.2.frames = right.2.maps := by
  obtain ⟨harena, hrepresents⟩ := ScopeCall.run_related (R := Arena.Represents)
    (fun call s m h => h.perform call) calls (Arena.represents_empty (α := α))
  obtain ⟨hframes, hmaps⟩ := ScopeCall.run_related
    (R := fun (s : Scopes α) (m : MapStack α) => s.frames = m.maps)
    (fun call s m h => Scopes.perform_eq h call) calls (s := .empty) (t := .empty) rfl
  exact ⟨⟨hrepresents.linked, harena, hrepresents.maps⟩, hframes, hmaps⟩

end Covenant
