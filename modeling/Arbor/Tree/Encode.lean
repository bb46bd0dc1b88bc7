import Arbor.Document
import Arbor.Tree.Basic

/-!
Trees as documents: the inverse of reading them.

Every node becomes an object with its type first. A missing expression, an empty node and a missing
function body become null, and so does a list of names without names. A number that is not finite
has no document.
-/

set_option autoImplicit false

namespace Arbor.Encode

def nodeObject (type : NodeType) (fields : List (String × Document)) : Document :=
  .object (Table.ofPairs (("type", .string type.text) :: fields))

/-- A list of names; without names it is null. -/
def names : List String → Document
  | [] => .null
  | ns => .list (ns.map .string)

/-- A finite number as a literal. -/
def float? (x : Single) : Option Document :=
  if x.isFinite then some (.number (.literal (Layout.single.text Spread.wide x.datum))) else none

mutual

def expr : Expr → Option Document
  | .absent => some .null
  | .empty _ => some .null
  | .block body => do
    let es ← exprs body
    return nodeObject .block [("expressions", .list es)]
  | .assign name value => do
    let v ← expr value
    return nodeObject .assignment [("name", .string name), ("value", v)]
  | .var name => some (nodeObject .invoke [("name", .string name)])
  | .string value => some (nodeObject .stringLiteral [("value", .string value)])
  | .integer value =>
    some (nodeObject .integerLiteral [("value", .number (.literal (toString value.toInt)))])
  | .float value => do
    let v ← float? value
    return nodeObject .floatLiteral [("value", v)]
  | .bool value => some (nodeObject .booleanLiteral [("value", .bool value)])
  | .list elements => do
    let es ← exprs elements
    return nodeObject .listLiteral [("elements", .list es)]
  | .map es => do
    let ds ← entries es
    return nodeObject .mapLiteral [("entries", .list ds)]
  | .call path arguments => do
    let es ← exprs arguments
    return nodeObject .functionCall
      [("path", .object [("item", .string path.item), ("module", .string path.module)]),
        ("arguments", .list es)]
  | .cond test whenTrue whenFalse => do
    let t ← expr test
    let a ← expr whenTrue
    let b ← expr whenFalse
    return nodeObject .condition [("test", t), ("whenTrue", a), ("whenFalse", b)]
  | .loop body => do
    let b ← expr body
    return nodeObject .loop [("body", b)]
  | .ret argument => do
    let a ← expr argument
    return nodeObject .ret [("argument", a)]
  | .brk argument => do
    let a ← expr argument
    return nodeObject .brk [("argument", a)]

def exprs : List Expr → Option (List Document)
  | [] => some []
  | e :: rest => do
    let d ← expr e
    let ds ← exprs rest
    return d :: ds

/-- The documents of the entries of a map; a blank entry is null. -/
def entries : List Entry → Option (List Document)
  | [] => some []
  | .blank :: rest => do
    let ds ← entries rest
    return .null :: ds
  | .field key value :: rest => do
    let v ← expr value
    let ds ← entries rest
    return .object (Table.ofPairs
      [("type", .string "MapEntry"), ("key", .string key), ("value", v)]) :: ds

end

def item : Item → Option Document
  | .define d => do
    let body ←
      match d.body with
      | none => some .null
      | some es => expr (.block es)
    return nodeObject .functionDefinition
      [("name", .string d.name), ("parameters", names d.parameters), ("body", body)]
  | .exports ns => some (nodeObject .exportItem [("names", names ns)])
  | .imports module ns =>
    some (nodeObject .importItem [("module", .string module), ("items", names ns)])

def module (m : Module) : Option Document := do
  let items ← m.items.mapM item
  return nodeObject .module [("items", .list items)]

end Arbor.Encode
