import Arbor.Document
import Arbor.Text.Quoted
import Arbor.Tree.Basic

/-!
Reading trees from documents.

A node is an object whose `type` names one of the node types; its other fields follow from the type.
Required fields, kinds of values and ranges of numbers are checked in the order in which the fields
are listed here, depth first, and the first violation is reported with its place. A node that is
sound in itself but stands where its type does not belong is reported after its own contents were
read.
-/

set_option autoImplicit false

namespace Arbor

inductive Flaw where
  | notObject
  | missingType
  | unsupportedType (name : String)
  | notModule (found : NodeType)
  | expectedNode
  | notExpression (found : NodeType)
  | notItem (found : NodeType)
  | expectedString
  | missingList
  | expectedList
  | missingExpression
  | expectedObject
  | expectedPath
  | expectedBoolean
  | expectedInteger
  | badInteger (found : String)
  | overflow (value : Int)
  | expectedNumber
  | badNumber (found : String)
  deriving DecidableEq, Repr

def Flaw.text : Flaw → String
  | notObject => "document must be an object"
  | missingType => "missing node type"
  | unsupportedType name => "unsupported node type " ++ Text.quote name
  | notModule found => "expected Module, got " ++ found.text
  | expectedNode => "expected node object"
  | notExpression found => found.text ++ " is not an expression"
  | notItem found => found.text ++ " is not a module item"
  | expectedString => "expected string"
  | missingList => "missing list"
  | expectedList => "expected list"
  | missingExpression => "missing expression"
  | expectedObject => "expected object"
  | expectedPath => "expected object with module and item"
  | expectedBoolean => "expected boolean"
  | expectedInteger => "expected integer"
  | badInteger found => "expected integer, got " ++ found
  | overflow value => toString value ++ " overflows a 32-bit integer"
  | expectedNumber => "expected number"
  | badNumber found => "expected number, got " ++ found

/-- A violation of the tree grammar: where, and what. -/
structure Violation where
  place : Place
  flaw : Flaw
  deriving DecidableEq, Repr

def Violation.text (v : Violation) : String :=
  "decode: " ++ v.place.text ++ ": " ++ v.flaw.text

/-- A node of a tree, before its position decides what it may be. -/
inductive Node where
  | expr (e : Expr)
  | item (i : Item)
  | module (m : Module)

def Node.type : Node → NodeType
  | .expr e => e.nodeType?.getD .block
  | .item (.define _) => .functionDefinition
  | .item (.exports _) => .exportItem
  | .item (.imports ..) => .importItem
  | .module _ => .module

namespace Decode

/-- The result of reading one part. -/
abbrev Result (α : Type) := Except Violation α

def fault {α : Type} (place : Place) (flaw : Flaw) : Result α := .error ⟨place, flaw⟩

/-! ## Numbers -/

def inRange32 (n : Int) : Bool := -2147483648 ≤ n && n < 2147483648

def inRange64 (n : Int) : Bool := -9223372036854775808 ≤ n && n < 9223372036854775808

/-- The value of an integer literal: an optional minus and digits. -/
def integerLiteral? (s : String) : Option Int :=
  let (negative, ds) :=
    match s.toList with
    | '-' :: ds => (true, ds)
    | ds => (false, ds)
  if ds.isEmpty ∨ ¬ ds.all Char.isDigit then none
  else
    let n : Int := digitsValue 0 ds
    some (if negative then -n else n)

/-- The integer a double stands for, if it has no fraction; what does not fit into 64 bits counts as
the least 64-bit integer. -/
def wholeDouble? (x : Double) : Option Int :=
  match x.datum with
  | .nan => none
  | .infinite _ => some (-9223372036854775808)
  | .finite negative m place =>
    let size? : Option Nat :=
      if 0 ≤ place then some (m * Nat.pow 2 place.toNat)
      else
        let unit := Nat.pow 2 (-place).toNat
        if m % unit = 0 then some (m / unit) else none
    size?.map fun size =>
      let n : Int := if negative then -(size : Int) else size
      if inRange64 n then n else -9223372036854775808

def checkRange (place : Place) (n : Int) : Result Int32 :=
  if inRange32 n then .ok (Int32.ofInt n) else fault place (.overflow n)

/-- Reads a 32-bit integer. A literal has to be written without fraction and exponent. -/
def integer (place : Place) : Option Document → Result Int32
  | some (.number (.literal s)) =>
    match integerLiteral? s with
    | some n => if inRange64 n then checkRange place n else fault place (.badInteger s)
    | none => fault place (.badInteger s)
  | some (.number (.integer n)) => checkRange place n
  | some (.number (.double x)) =>
    match wholeDouble? x with
    | some n => checkRange place n
    | none => fault place (.badInteger x.text)
  | _ => fault place .expectedInteger

/-- Reads a single-layout number. A literal is first rounded to a double and then to a single. -/
def float (place : Place) : Option Document → Result Single
  | some (.number (.literal s)) =>
    match (Decimal.parse? s.toList).bind Decimal.toDouble? with
    | some x => .ok x.toSingle
    | none => fault place (.badNumber s)
  | some (.number (.integer n)) => .ok (Single.ofInt n)
  | some (.number (.double x)) => .ok x.toSingle
  | _ => fault place .expectedNumber

/-! ## Fields that hold no expressions -/

def stringField (fields : Table Document) (key : String) (place : Place) : Result String :=
  match Table.find? fields key with
  | some (.string s) => .ok s
  | _ => fault (.field key :: place) .expectedString

/-- The members of a list of names, from position `i` on. -/
def names (place : Place) : Nat → List Document → Result (List String)
  | _, [] => .ok []
  | i, .string s :: rest => do
    let tail ← names place (i + 1) rest
    return s :: tail
  | i, _ :: _ => fault (.index i :: place) .expectedString

/-- A list of names; missing or null it is empty. -/
def nameList (fields : Table Document) (key : String) (place : Place) : Result (List String) :=
  match Table.find? fields key with
  | none => .ok []
  | some .null => .ok []
  | some (.list items) => names (.field key :: place) 0 items
  | some _ => fault (.field key :: place) .expectedList

def path (fields : Table Document) (place : Place) : Result Path :=
  match Table.find? fields "path" with
  | some (.object inner) => do
    let module ← stringField inner "module" (.field "path" :: place)
    let item ← stringField inner "item" (.field "path" :: place)
    return ⟨module, item⟩
  | _ => fault (.field "path" :: place) .expectedPath

/-! ## Nodes -/

/-- A node in the position of an expression. -/
def asExpr (place : Place) (found : Result Node) : Result Expr :=
  match found with
  | .ok (.expr e) => .ok e
  | .ok n => fault place (.notExpression n.type)
  | .error v => .error v

def asItem (place : Place) (found : Result Node) : Result Item :=
  match found with
  | .ok (.item i) => .ok i
  | .ok n => fault place (.notItem n.type)
  | .error v => .error v

/-- A function body that is no block is taken as a block of one expression. -/
def bodyOf : Expr → List Expr
  | .block es => es
  | e => [e]

def required (key : String) (place : Place) (found : Result (Option Expr)) : Result Expr :=
  match found with
  | .ok (some e) => .ok e
  | .ok none => fault (.field key :: place) .missingExpression
  | .error v => .error v

mutual

def node (place : Place) : Document → Result Node
  | .object fields =>
    match Table.find? fields "type" with
    | some (.string name) =>
      match NodeType.ofText? name with
      | some .module => do
        let items ← itemsField place fields
        return .module ⟨items⟩
      | some .exportItem => do
        let names ← nameList fields "names" place
        return .item (.exports names)
      | some .importItem => do
        let module ← stringField fields "module" place
        let names ← nameList fields "items" place
        return .item (.imports module names)
      | some .functionDefinition => do
        let name ← stringField fields "name" place
        let parameters ← nameList fields "parameters" place
        let body ← exprField "body" place fields
        return .item (.define ⟨name, parameters, body.map bodyOf⟩)
      | some .block => do
        let es ← exprsField "expressions" place fields
        return .expr (.block es)
      | some .assignment => do
        let name ← stringField fields "name" place
        let value ← required "value" place (exprField "value" place fields)
        return .expr (.assign name value)
      | some .invoke => do
        let name ← stringField fields "name" place
        return .expr (.var name)
      | some .stringLiteral => do
        let value ← stringField fields "value" place
        return .expr (.string value)
      | some .integerLiteral => do
        let value ← integer (.field "value" :: place) (Table.find? fields "value")
        return .expr (.integer value)
      | some .floatLiteral => do
        let value ← float (.field "value" :: place) (Table.find? fields "value")
        return .expr (.float value)
      | some .booleanLiteral =>
        match Table.find? fields "value" with
        | some (.bool b) => .ok (.expr (.bool b))
        | _ => fault (.field "value" :: place) .expectedBoolean
      | some .listLiteral => do
        let es ← exprsField "elements" place fields
        return .expr (.list es)
      | some .mapLiteral => do
        let entries ← entriesField place fields
        return .expr (.map entries)
      | some .functionCall => do
        let path ← path fields place
        let arguments ← exprsField "arguments" place fields
        return .expr (.call path arguments)
      | some .condition => do
        let test ← required "test" place (exprField "test" place fields)
        let whenTrue ← required "whenTrue" place (exprField "whenTrue" place fields)
        let whenFalse ← required "whenFalse" place (exprField "whenFalse" place fields)
        return .expr (.cond test whenTrue whenFalse)
      | some .loop => do
        let body ← required "body" place (exprField "body" place fields)
        return .expr (.loop body)
      | some .ret => do
        let argument ← exprField "argument" place fields
        return .expr (.ret (argument.getD .absent))
      | some .brk => do
        let argument ← exprField "argument" place fields
        return .expr (.brk (argument.getD .absent))
      | none => fault (.field "type" :: place) (.unsupportedType name)
    | _ => fault (.field "type" :: place) .missingType
  | _ => fault place .expectedNode

/-- Reads the expression in the field `key`; missing or null there is none. -/
def exprField (key : String) (place : Place) : List (String × Document) → Result (Option Expr)
  | [] => .ok none
  | (k, .null) :: rest => if k = key then .ok none else exprField key place rest
  | (k, d) :: rest =>
    if k = key then do
      let e ← asExpr (.field key :: place) (node (.field key :: place) d)
      return some e
    else exprField key place rest

/-- Reads the list of expressions in the field `key`; missing or null it is empty. -/
def exprsField (key : String) (place : Place) : List (String × Document) → Result (List Expr)
  | [] => .ok []
  | (k, .null) :: rest => if k = key then .ok [] else exprsField key place rest
  | (k, .list items) :: rest =>
    if k = key then exprs (.field key :: place) 0 items else exprsField key place rest
  | (k, _) :: rest =>
    if k = key then fault (.field key :: place) .expectedList else exprsField key place rest

/-- Reads the members of a list of expressions, from position `i` on. -/
def exprs (place : Place) (i : Nat) : List Document → Result (List Expr)
  | [] => .ok []
  | d :: rest => do
    let e ← asExpr (.index i :: place) (node (.index i :: place) d)
    let es ← exprs place (i + 1) rest
    return e :: es

def entriesField (place : Place) : List (String × Document) → Result (List Entry)
  | [] => .ok []
  | (k, .null) :: rest => if k = "entries" then .ok [] else entriesField place rest
  | (k, .list items) :: rest =>
    if k = "entries" then entries (.field "entries" :: place) 0 items else entriesField place rest
  | (k, _) :: rest =>
    if k = "entries" then fault (.field "entries" :: place) .expectedList
    else entriesField place rest

/-- Reads the entries of a map literal from position `i` on: objects with a key and a value. -/
def entries (place : Place) (i : Nat) : List Document → Result (List Entry)
  | [] => .ok []
  | .object fields :: rest => do
    let key ← stringField fields "key" (.index i :: place)
    let value ← required "value" (.index i :: place) (exprField "value" (.index i :: place) fields)
    let es ← entries place (i + 1) rest
    return .field key value :: es
  | _ :: _ => fault (.index i :: place) .expectedObject

def itemsField (place : Place) : List (String × Document) → Result (List Item)
  | [] => fault (.field "items" :: place) .missingList
  | (k, .null) :: rest =>
    if k = "items" then fault (.field "items" :: place) .missingList else itemsField place rest
  | (k, .list items) :: rest =>
    if k = "items" then itemList (.field "items" :: place) 0 items else itemsField place rest
  | (k, _) :: rest =>
    if k = "items" then fault (.field "items" :: place) .expectedList else itemsField place rest

def itemList (place : Place) (i : Nat) : List Document → Result (List Item)
  | [] => .ok []
  | d :: rest => do
    let item ← asItem (.index i :: place) (node (.index i :: place) d)
    let items ← itemList place (i + 1) rest
    return item :: items

end

def expr (place : Place) (d : Document) : Result Expr := asExpr place (node place d)

end Decode

def Document.toExpr : Document → Except Violation Expr
  | .object fields => Decode.expr [] (.object fields)
  | _ => Decode.fault [] .notObject

def Document.toModule : Document → Except Violation Module
  | .object fields => do
    match ← Decode.node [] (.object fields) with
    | .module m => .ok m
    | n => Decode.fault [] (.notModule n.type)
  | _ => Decode.fault [] .notObject

end Arbor
