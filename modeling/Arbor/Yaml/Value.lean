import Arbor.Document
import Arbor.Yaml.Reading
import Arbor.Yaml.Source

/-!
The contents of a YAML document, whatever they are.

A mapping whose keys are all texts is an object. Any other mapping is read for its faults only, and
so are dates.
-/

set_option autoImplicit false

namespace Arbor.Yaml

def Scalar.document : Scalar → Document
  | null => .null
  | bool b => .bool b
  | integer n => .number (.integer n)
  | double x => .number (.double x)
  | time => .other
  | string s => .string s

namespace Reading

variable {ε : Type}

/-- Whether every key is a text. -/
def hasTextKeys (anchored : Array (Option Node)) (pairs : List (Node × Node)) : Bool :=
  pairs.all fun p =>
    match p.1.target? anchored with
    | some n => n.tag == Tag.str || n.tag == Tag.merge
    | none => false

/-- A key of any kind: what it stands for if it is a scalar. A collection cannot be a key. -/
def anyKey (value : Trail → Node → Reading ε (Option Document)) (trail : Trail) (n : Node) :
    Reading ε (Option Scalar) := do
  match n.target? (← read) with
  | some (.scalar ..) => scalarKey trail n
  | _ =>
    if (← value trail n).isSome then malformed else return none

/-- How the pairs of an object are taken in. -/
def objectPlan (value : Trail → Node → Reading ε (Option Document)) :
    Plan ε (Table Document) where
  key := fieldName
  loose := anyKey value
  put trail key _ v fields := do
    match ← value trail v, key with
    | some d, .string name => return fields.insert name d
    | _, _ => return fields

/-- How the pairs of a mapping with keys of any kind are taken in: only their faults count. -/
def looseEntries (value : Trail → Node → Reading ε (Option Document)) : Plan ε Unit where
  key := anyKey value
  loose := anyKey value
  put trail _ _ v _ := do
    let _ ← value trail v

def value : Nat → Trail → Node → Reading ε (Option Document)
  | 0, _, _ => malformed
  | fuel + 1, trail, n => do
    let (n, trail) ← follow trail n
    match n with
    | .scalar tag written _ => return some (← scalar tag written).document
    | .sequence _ items _ =>
      let parts ← items.mapM (value fuel trail)
      return some (.list (parts.filterMap id))
    | .mapping _ pairs _ =>
      if ← distinctKeys pairs then
        if hasTextKeys (← read) pairs then
          let (fields, _) ← entries (objectPlan (value fuel)) fuel trail pairs none []
          return some (.object fields)
        else
          let _ ← entries (looseEntries (value fuel)) fuel trail pairs none ()
          return some .other
      else return none
    | .reference .. => malformed

end Reading

/-- The first document of a stream of bytes, if there is one. -/
def firstDocument (bytes : List UInt8) : Except (Fault Empty) (Option Stream) :=
  match source? bytes with
  | none => .error .malformed
  | some cs =>
    match compose? cs with
    | none => .error .malformed
    | some s => .ok s

/-- The contents of the first document; an empty stream holds null. -/
def parse (bytes : List UInt8) : Except (Fault Empty) Document := do
  match ← firstDocument bytes with
  | none => return .null
  | some s =>
    let read : Reading Empty (Option Document) := do
      Reading.visit []
      Reading.value s.depth [] s.root
    return (← read.run s.anchored).getD .null

end Arbor.Yaml
