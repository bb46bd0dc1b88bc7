import Arbor.Failure
import Arbor.Tree.Basic

/-!
Loaded modules and how paths are resolved in them.

A module that is loaded from a tree becomes a table of functions and a set of exported names. A
function is defined by a tree, native to the host, or imported from another module under its own
name. A registry maps names to loaded modules. Exports are recorded and not consulted when a path is
resolved.
-/

set_option autoImplicit false

namespace Arbor

/-- The identity of a native function: it selects the handler and the lock. -/
abbrev NativeId := Nat

inductive FunctionKind where
  | defined | native | imported
  | unknown (code : Int)
  deriving DecidableEq, Repr

namespace FunctionKind

def ofCode (code : Int) : FunctionKind :=
  match code with
  | 0 => defined
  | 1 => native
  | 2 => imported
  | n => unknown n

def text : FunctionKind → String
  | defined => "defined"
  | native => "native"
  | imported => "imported"
  | unknown code => "unknown_function_kind_" ++ toString code

end FunctionKind

/-- A function of a loaded module. A native function may lack a handler. -/
inductive Function where
  | defined (parameters : List String) (body : Option (List Expr))
  | native (id : NativeId) (arity : Nat) (handled : Bool)
  | imported (target : Path)

namespace Function

def kind : Function → FunctionKind
  | defined .. => .defined
  | native .. => .native
  | imported _ => .imported

/-- The number of arguments it takes; for an import it is not known and counts as -1. -/
def arity : Function → Int
  | defined parameters _ => parameters.length
  | native _ arity _ => arity
  | imported _ => -1

end Function

structure Library where
  name : String
  functions : Table Function
  exported : Table Unit

namespace Library

def empty (name : String) : Library := ⟨name, [], []⟩

def add (l : Library) (name : String) (f : Function) : Library :=
  { l with functions := Table.insert l.functions name f }

def exportName (l : Library) (name : String) : Library :=
  { l with exported := Table.insert l.exported name () }

def addItem (l : Library) : Item → Library
  | .define d => l.add d.name (.defined d.parameters d.body)
  | .exports names => names.foldl exportName l
  | .imports module names => names.foldl (fun l name => l.add name (.imported ⟨module, name⟩)) l

/-- The loaded form of a module; later items replace earlier ones of the same name. -/
def ofModule (name : String) (m : Option Module) : Library :=
  match m with
  | none => empty name
  | some m => m.items.foldl addItem (empty name)

def function? (l : Library) (name : String) : Option Function := Table.find? l.functions name

theorem function?_add (l : Library) (name : String) (f : Function) (item : String) :
    (l.add name f).function? item = if name = item then some f else l.function? item :=
  Table.find?_insert ..

def functionNames (l : Library) : List String := Table.keys l.functions

def exports (l : Library) : List String := Table.keys l.exported

def isExported (l : Library) (name : String) : Bool := Table.contains l.exported name

end Library

structure Registry where
  modules : Table Library

namespace Registry

def empty : Registry := ⟨[]⟩

/-- Registers a module, in place of any other of the same name. -/
def register (r : Registry) (l : Library) : Registry := ⟨Table.insert r.modules l.name l⟩

def module? (r : Registry) (name : String) : Option Library := Table.find? r.modules name

theorem module?_register (r : Registry) (l : Library) (name : String) :
    (r.register l).module? name = if l.name = name then some l else r.module? name :=
  Table.find?_insert ..

def names (r : Registry) : List String := Table.keys r.modules

def resolve (r : Registry) (path : Path) : Except Cause Function :=
  match r.module? path.module with
  | none => .error (.unknownModule path.module)
  | some l =>
    match l.function? path.item with
    | none => .error (.unboundFunction path)
    | some f => .ok f

theorem resolve_eq_ok_iff {r : Registry} {path : Path} {f : Function} :
    r.resolve path = .ok f ↔
      ∃ l, r.module? path.module = some l ∧ l.function? path.item = some f := by
  unfold resolve
  cases r.module? path.module with
  | none => simp
  | some l => cases hf : l.function? path.item <;> simp [hf]

end Registry

/-! ## Exclusive use of native functions -/

/-- The native functions that are in use. -/
abbrev Held := List NativeId

/-- Takes a function into use. A native one that is in use already is refused. -/
def Function.acquire (f : Function) (path : Path) (held : Held) : Except Cause Held :=
  match f with
  | .native id _ _ => if id ∈ held then .error (.reentrant path) else .ok (id :: held)
  | _ => .ok held

def Registry.acquire (r : Registry) (path : Path) (held : Held) : Except Cause (Function × Held) :=
  match r.resolve path with
  | .error c => .error c
  | .ok f =>
    match f.acquire path held with
    | .error c => .error c
    | .ok held => .ok (f, held)

/-! What a path that is refused may be refused for. -/

section Acquire

variable {r : Registry} {f : Function} {path : Path} {held held' : Held} {c : Cause}

theorem Registry.resolve_error (h : r.resolve path = .error c) :
    c = .unknownModule path.module ∨ c = .unboundFunction path := by
  unfold Registry.resolve at h
  split at h
  · cases h
    exact .inl rfl
  · split at h
    · cases h
      exact .inr rfl
    · cases h

theorem Function.acquire_error (h : f.acquire path held = .error c) : c = .reentrant path := by
  unfold Function.acquire at h
  split at h
  · split at h
    · cases h
      rfl
    · cases h
  · cases h

theorem Registry.acquire_eq_ok_iff :
    r.acquire path held = .ok (f, held') ↔
      r.resolve path = .ok f ∧ f.acquire path held = .ok held' := by
  unfold Registry.acquire
  constructor
  · intro h
    split at h
    · cases h
    · next hf =>
      split at h
      · cases h
      · next ha =>
        cases h
        exact ⟨hf, ha⟩
  · rintro ⟨hf, ha⟩
    simp only [hf, ha]

theorem Registry.acquire_eq_error_iff :
    r.acquire path held = .error c ↔
      r.resolve path = .error c ∨ ∃ f, r.resolve path = .ok f ∧ f.acquire path held = .error c := by
  unfold Registry.acquire
  constructor
  · intro h
    split at h
    · next hr =>
      cases h
      exact .inl hr
    · next f hf =>
      split at h
      · next ha =>
        cases h
        exact .inr ⟨f, hf, ha⟩
      · cases h
  · rintro (hr | ⟨f, hf, ha⟩)
    · simp only [hr]
    · simp only [hf, ha]

theorem Registry.acquire_error (h : r.acquire path held = .error c) :
    c = .unknownModule path.module ∨ c = .unboundFunction path ∨ c = .reentrant path := by
  obtain hr | ⟨f, -, ha⟩ := Registry.acquire_eq_error_iff.1 h
  · exact (Registry.resolve_error hr).imp id .inl
  · exact .inr (.inr (Function.acquire_error ha))

end Acquire

def Function.release (f : Function) (held : Held) : Held :=
  match f with
  | .native id _ _ => held.erase id
  | _ => held

end Arbor
