import Arbor.Number.Binary

/-!
Programs as trees.

An expression is a tree of blocks, assignments, variables, literals, calls, conditions, loops and
jumps. Two more forms cover trees that a host builds by hand: `absent`, where an expression is
missing altogether, and `empty`, a node of a known type with nothing in it. A module is a list of
items: function definitions, exports and imports.
-/

set_option autoImplicit false

namespace Arbor

/-- The address of a function: a module and the name of an item in it. -/
structure Path where
  module : String
  item : String
  deriving DecidableEq, Repr

def Path.text (p : Path) : String := p.module ++ "." ++ p.item

inductive NodeType where
  | block | assignment | invoke | stringLiteral | integerLiteral | floatLiteral | booleanLiteral
  | listLiteral | mapLiteral | functionCall | condition | loop | ret | brk
  | exportItem | importItem | functionDefinition | module
  deriving DecidableEq, Repr

namespace NodeType

/-- The name of the node type in documents. -/
def text : NodeType → String
  | block => "Block"
  | assignment => "Assignment"
  | invoke => "Invoke"
  | stringLiteral => "StringLiteral"
  | integerLiteral => "IntegerLiteral"
  | floatLiteral => "FloatLiteral"
  | booleanLiteral => "BooleanLiteral"
  | listLiteral => "ListLiteral"
  | mapLiteral => "MapLiteral"
  | functionCall => "FunctionCall"
  | condition => "Condition"
  | loop => "Loop"
  | ret => "Return"
  | brk => "Break"
  | exportItem => "Export"
  | importItem => "Import"
  | functionDefinition => "FunctionDefinition"
  | module => "Module"

def all : List NodeType :=
  [block, assignment, invoke, stringLiteral, integerLiteral, floatLiteral, booleanLiteral,
    listLiteral, mapLiteral, functionCall, condition, loop, ret, brk,
    exportItem, importItem, functionDefinition, module]

def ofText? (s : String) : Option NodeType := all.find? (·.text == s)

end NodeType

mutual

inductive Expr where
  /-- No expression at all. -/
  | absent
  /-- A node of that type without contents. -/
  | empty (type : NodeType)
  | block (body : List Expr)
  | assign (name : String) (value : Expr)
  | var (name : String)
  | string (value : String)
  | integer (value : Int32)
  | float (value : Single)
  | bool (value : Bool)
  | list (elements : List Expr)
  | map (entries : List Entry)
  | call (path : Path) (arguments : List Expr)
  | cond (test whenTrue whenFalse : Expr)
  | loop (body : Expr)
  | ret (argument : Expr)
  | brk (argument : Expr)

/-- An entry of a map literal; a blank one binds nothing. -/
inductive Entry where
  | blank
  | field (key : String) (value : Expr)

end

/-- The body of a function is a list of expressions, or missing. -/
structure Definition where
  name : String
  parameters : List String
  body : Option (List Expr)

inductive Item where
  | define (definition : Definition)
  | exports (names : List String)
  | imports (module : String) (names : List String)

structure Module where
  items : List Item

def Module.definitions (m : Module) : List Definition :=
  m.items.filterMap fun
    | .define d => some d
    | _ => none

/-- The type of the node at the top of an expression; a missing expression has none. -/
def Expr.nodeType? : Expr → Option NodeType
  | .absent => none
  | .empty t => some t
  | .block _ => some .block
  | .assign .. => some .assignment
  | .var _ => some .invoke
  | .string _ => some .stringLiteral
  | .integer _ => some .integerLiteral
  | .float _ => some .floatLiteral
  | .bool _ => some .booleanLiteral
  | .list _ => some .listLiteral
  | .map _ => some .mapLiteral
  | .call .. => some .functionCall
  | .cond .. => some .condition
  | .loop _ => some .loop
  | .ret _ => some .ret
  | .brk _ => some .brk

end Arbor
