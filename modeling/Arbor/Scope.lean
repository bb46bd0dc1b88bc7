import Arbor.Value.Basic

/-!
Scopes: a stack of frames with bindings.

Names are looked up from the top frame downwards. A frame that does not bubble ends the search, so
that it hides all frames below it. Bindings are made in the top frame only.
-/

set_option autoImplicit false

namespace Arbor

structure Frame where
  bindings : Table Value
  bubbles : Bool

namespace Frame

/-- Binds names to the values at the same positions; later names win, and names without a value
stay unbound. -/
def seed (names : List String) (values : List Value) (bubbles : Bool) : Frame :=
  ⟨Table.ofPairs (names.zip values), bubbles⟩

def get? (f : Frame) (name : String) : Option Value := Table.find? f.bindings name

def insert (f : Frame) (name : String) (v : Value) : Frame :=
  { f with bindings := Table.insert f.bindings name v }

def keys (f : Frame) : List String := Table.keys f.bindings

end Frame

/-- A stack of frames, the top one first. -/
structure Scopes where
  frames : List Frame

namespace Scopes

def empty : Scopes := ⟨[]⟩

def push (s : Scopes) (f : Frame) : Scopes := ⟨f :: s.frames⟩

def pop (s : Scopes) : Scopes := ⟨s.frames.tail⟩

def depth (s : Scopes) : Nat := s.frames.length

def top? (s : Scopes) : Option Frame := s.frames.head?

/-- Binds a name in the top frame; without frames it cannot be bound. -/
def insert? (s : Scopes) (name : String) (v : Value) : Option Scopes :=
  match s.frames with
  | [] => none
  | f :: below => some ⟨f.insert name v :: below⟩

/-- The value of a name in the first frame that binds it, up to the first that does not bubble. -/
def search (name : String) : List Frame → Option Value
  | [] => none
  | f :: below =>
    match f.get? name with
    | some v => some v
    | none => if f.bubbles then search name below else none

def lookup? (s : Scopes) (name : String) : Option Value := search name s.frames

end Scopes

end Arbor
