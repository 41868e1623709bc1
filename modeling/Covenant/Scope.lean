import Covenant.Error
import Std.Data.TreeMap

/-!
# Scopes

Names are bound in a stack of frames over a global one that is always there. A name means its
binding in the innermost frame that has one. The interpreter binds names to values, and the compiler
binds them to slots, by the same rules.

## Main definitions

* `Frame`: the bindings of one scope.
* `Scopes`: the open frames, innermost first, over the global one.
* `Scopes.lookup?`: the binding of a name and how many frames lie above it.
* `Scopes.define`, `Scopes.set`: a binding in the innermost frame, and a new value for the binding
  that a name has.
-/

namespace Covenant

/-- The bindings of one scope. -/
abbrev Frame (α : Type) := Std.TreeMap String α

/-- A stack of frames over the global one. -/
structure Scopes (α : Type) where
  /-- The frames opened and not yet closed, innermost first. -/
  inner : List (Frame α)
  /-- The frame that is never closed. -/
  globals : Frame α

namespace Scopes

variable {α : Type}

/-- Nothing but an empty global frame. -/
def empty : Scopes α := ⟨[], ∅⟩

/-- All frames, innermost first. -/
def frames (s : Scopes α) : List (Frame α) :=
  s.inner ++ [s.globals]

/-- The number of frames. -/
def depth (s : Scopes α) : Nat :=
  s.inner.length + 1

/-- Whether the global frame is the innermost. -/
def isGlobal (s : Scopes α) : Bool :=
  s.inner.isEmpty

/-- The innermost frame. -/
def innermost (s : Scopes α) : Frame α :=
  s.inner.headD s.globals

/-- Opens a frame. -/
def push (s : Scopes α) : Scopes α :=
  { s with inner := ∅ :: s.inner }

/-- Closes the innermost frame; the global one stays. -/
def pop (s : Scopes α) : Scopes α :=
  { s with inner := s.inner.tail }

/-- Binds a name in the innermost frame. -/
def define (s : Scopes α) (name : String) (a : α) : Scopes α :=
  match s with
  | ⟨[], globals⟩ => ⟨[], globals.insert name a⟩
  | ⟨frame :: rest, globals⟩ => ⟨frame.insert name a :: rest, globals⟩

/-- Whether the innermost frame itself binds a name. -/
def definesLocally (s : Scopes α) (name : String) : Bool :=
  s.innermost.contains name

/-- The number of bindings in the innermost frame. -/
def localCount (s : Scopes α) : Nat :=
  s.innermost.size

/-- The first of the frames that binds a name, with the number of frames before it. -/
def lookupIn? (name : String) : List (Frame α) → Nat → Option (Nat × α)
  | [], _ => none
  | frame :: rest, hops =>
    match frame[name]? with
    | some a => some (hops, a)
    | none => lookupIn? name rest (hops + 1)

/-- The binding of a name, and the number of frames between it and the innermost one. -/
def lookup? (s : Scopes α) (name : String) : Option (Nat × α) :=
  match lookupIn? name s.inner 0 with
  | some found => some found
  | none => s.globals[name]?.map (s.inner.length, ·)

/-- The binding of a name. -/
def get (s : Scopes α) (name : String) : Except Error α :=
  match s.lookup? name with
  | some (_, a) => .ok a
  | none => .error (.notDefined name)

/-- The frames with a new value in the first that binds a name. -/
def setIn? (name : String) (a : α) : List (Frame α) → Option (List (Frame α))
  | [] => none
  | frame :: rest =>
    if frame.contains name then some (frame.insert name a :: rest)
    else (setIn? name a rest).map (frame :: ·)

/-- Gives the binding of a name a new value; a name without one is an error. -/
def set (s : Scopes α) (name : String) (a : α) : Except Error (Scopes α) :=
  match setIn? name a s.inner with
  | some inner => .ok { s with inner }
  | none =>
    if s.globals.contains name then .ok { s with globals := s.globals.insert name a }
    else .error (.notDefined name)

end Scopes

end Covenant
