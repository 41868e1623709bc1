import Covenant.Scope

/-!
# Scopes in an arena

All frames of a stack of scopes are kept in one array, and each refers by index to the frame around
it. A new frame goes to the end of the array, and closing a frame cuts the array off before it. What
a name means is found on the way out from the innermost frame, from one reference to the next.

## Main definitions

* `Arena` : the frames, and which of them is the innermost.
* `Arena.push`, `Arena.pop` : frames are opened and closed.
* `Arena.lookup?`, `Arena.set` : the binding of a name is found, or written, on the way out.
* `Arena.depth` : the number of frames on the way out.
-/

namespace Covenant

/-- A frame of an arena, with the index of the frame around it. -/
structure Arena.Entry (α : Type) where
  /-- What the frame itself binds. -/
  bindings : Frame α
  /-- The index of the frame around it, which the global frame has not. -/
  parent : Option Nat

/-- Frames that refer to those around them by index. Every reference is to an earlier frame, so
that the way out ends. -/
structure Arena (α : Type) where
  /-- The frames, the global one first. -/
  frames : Array (Arena.Entry α)
  /-- The innermost frame. -/
  current : Fin frames.size
  parent_lt {i p : Nat} {entry : Arena.Entry α} :
    frames[i]? = some entry → entry.parent = some p → p < i

namespace Arena

variable {α : Type}

/-- The global frame alone, with nothing bound. -/
def empty : Arena α where
  frames := #[⟨∅, none⟩]
  current := ⟨0, Nat.one_pos⟩
  parent_lt {i p entry} hentry hp := by
    obtain rfl : entry = ⟨∅, none⟩ :=
      List.mem_singleton.mp (Array.mem_toList_iff.mpr (Array.mem_of_getElem? hentry))
    cases hp

/-- What a frame binds. -/
def bindings (s : Arena α) (i : Fin s.frames.size) : Frame α :=
  s.frames[i].bindings

/-- The frame around a given one. -/
def outer? (s : Arena α) (i : Fin s.frames.size) : Option (Fin s.frames.size) :=
  s.frames[i].parent.pmap (fun p hp => ⟨p, Nat.lt_trans hp i.isLt⟩)
    fun _ hp => s.parent_lt (Array.getElem?_eq_getElem i.isLt) hp

theorem lt_of_outer? {s : Arena α} {i p : Fin s.frames.size} (h : s.outer? i = some p) : p < i := by
  obtain ⟨q, hq, _, rfl⟩ := Option.pmap_eq_some_iff.mp h
  exact hq

/-- The number of frames on the way out from one, which is the last of so many. -/
def depthFrom (s : Arena α) (i : Fin s.frames.size) (depth : Nat) : Nat :=
  match _ : s.outer? i with
  | some p => s.depthFrom p (depth + 1)
  | none => depth
termination_by i.val
decreasing_by exact lt_of_outer? ‹_›

/-- The number of frames on the way out. -/
def depth (s : Arena α) : Nat :=
  s.depthFrom s.current 1

/-- Whether the global frame is the innermost. -/
def isGlobal (s : Arena α) : Bool :=
  s.current.val == 0

/-- Opens a frame. -/
def push (s : Arena α) : Arena α where
  frames := s.frames.push ⟨∅, some s.current⟩
  current := ⟨s.frames.size, by simp⟩
  parent_lt {i p entry} hentry hp := by
    rw [Array.getElem?_push] at hentry
    split at hentry
    · rename_i hi
      cases hentry
      cases hp
      exact hi ▸ s.current.isLt
    · exact s.parent_lt hentry hp

/-- Closes the innermost frame; the global one stays. -/
def pop (s : Arena α) : Arena α :=
  match h : s.outer? s.current with
  | none => s
  | some p =>
    { frames := s.frames.take s.current
      current := ⟨p, by
        have hlt := Nat.le_of_lt s.current.isLt
        rw [Array.take_eq_extract, Array.size_extract, Nat.min_eq_left hlt]
        exact lt_of_outer? h⟩
      parent_lt := fun {i p entry} hentry hp => by
        rw [Array.take_eq_extract, Array.getElem?_extract, Nat.zero_add] at hentry
        split at hentry
        · exact s.parent_lt hentry hp
        · cases hentry }

/-- Binds a name in a given frame. -/
def bindIn (s : Arena α) (i : Fin s.frames.size) (name : String) (a : α) : Arena α where
  frames := s.frames.set i { s.frames[i] with bindings := (s.bindings i).insert name a }
  current := ⟨s.current, by
    rw [Array.size_set]
    exact s.current.isLt⟩
  parent_lt {j p entry} hentry hp := by
    rw [Array.getElem?_set] at hentry
    split at hentry
    · rename_i hj
      cases hentry
      exact hj ▸ s.parent_lt (Array.getElem?_eq_getElem i.isLt) hp
    · exact s.parent_lt hentry hp

/-- Binds a name in the innermost frame. -/
def define (s : Arena α) (name : String) (a : α) : Arena α :=
  s.bindIn s.current name a

/-- Whether the innermost frame itself binds a name. -/
def definesLocally (s : Arena α) (name : String) : Bool :=
  (s.bindings s.current).contains name

/-- The number of bindings in the innermost frame. -/
def localCount (s : Arena α) : Nat :=
  (s.bindings s.current).size

/-- The first binding of a name on the way out from a frame that so many others lie before. -/
def lookupFrom? (s : Arena α) (name : String) (i : Fin s.frames.size) (hops : Nat) :
    Option (Nat × α) :=
  match (s.bindings i)[name]? with
  | some a => some (hops, a)
  | none =>
    match _ : s.outer? i with
    | some p => s.lookupFrom? name p (hops + 1)
    | none => none
termination_by i.val
decreasing_by exact lt_of_outer? ‹_›

/-- The binding of a name, and the number of frames passed on the way out to it. -/
def lookup? (s : Arena α) (name : String) : Option (Nat × α) :=
  s.lookupFrom? name s.current 0

/-- The binding of a name. -/
def get (s : Arena α) (name : String) : Except Error α :=
  match s.lookup? name with
  | some (_, a) => .ok a
  | none => .error (.notDefined name)

/-- Gives the first binding of a name on the way out from a frame a new value. -/
def setFrom (s : Arena α) (name : String) (a : α) (i : Fin s.frames.size) :
    Except Error Unit × Arena α :=
  if (s.bindings i).contains name then (.ok (), s.bindIn i name a)
  else
    match _ : s.outer? i with
    | some p => s.setFrom name a p
    | none => (.error (.notDefined name), s)
termination_by i.val
decreasing_by exact lt_of_outer? ‹_›

/-- Gives the binding of a name a new value; a name without one is an error. -/
def set (s : Arena α) (name : String) (a : α) : Except Error Unit × Arena α :=
  s.setFrom name a s.current

end Arena

end Covenant
