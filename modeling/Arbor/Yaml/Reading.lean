import Arbor.Yaml.Fault
import Arbor.Yaml.Node

/-!
Reading values from the nodes of a document.

* `Reading` counts the nodes it visits, so that aliases cannot blow up a small document, and collects
  issues.
* `Reading.text` reads a text, `Reading.entries` the pairs of a mapping with everything merged into
  it, `Reading.record` a mapping with known fields, `Reading.records` a list of such mappings.
* A `Trail` holds the aliases followed on the way to a node; none may be followed twice.

Readers answer `none` where a value is left out.
-/

set_option autoImplicit false

namespace Arbor.Yaml

/-- The numbers of the aliases followed on the way to a node. -/
abbrev Trail := List Nat

structure Tally where
  visited : Nat
  /-- How many nodes were reached through an alias. -/
  aliased : Nat
  /-- The issues so far, the latest first. -/
  issues : List Issue

def Tally.start : Tally := ⟨0, 0, []⟩

/-- Whether too many nodes were reached through aliases: 99 in a hundred for a small document,
falling to ten in a hundred between 400000 and 4000000 nodes. -/
def Tally.isExcessive (t : Tally) : Bool :=
  let allowed :=
    if t.visited ≤ 400000 then 99 * 3600000
    else if t.visited ≥ 4000000 then 10 * 3600000
    else 99 * 3600000 - 89 * (t.visited - 400000)
  t.aliased > 100 && t.visited > 1000 && t.aliased * 100 * 3600000 > allowed * t.visited

/-- Readings of the nodes of a document with a table of anchored nodes. -/
abbrev Reading (ε : Type) := ReaderT (Array (Option Node)) (StateT Tally (Except (Fault ε)))

namespace Node

/-- The node an alias refers to; any other node is its own. -/
def target? (anchored : Array (Option Node)) : Node → Option Node
  | .reference _ id _ _ => anchored.getD id none
  | n => some n

def tag : Node → String
  | scalar t _ _ => t
  | sequence t _ _ => t
  | mapping t _ _ => t
  | reference .. => ""

/-- Whether the key of a pair asks to merge the value into the mapping. -/
def isMerge : Node → Bool
  | scalar t text _ => text == "<<" && t == Tag.merge
  | _ => false

/-- What two keys of a mapping must not have in common: their kind and their text. -/
def identity : Node → Nat × String
  | scalar _ text _ => (0, text)
  | sequence .. => (1, "")
  | mapping .. => (2, "")
  | reference name _ _ _ => (3, name)

mutual

def size : Node → Nat
  | scalar .. => 1
  | reference .. => 1
  | sequence _ items _ => sizes items + 1
  | mapping _ pairs _ => pairSizes pairs + 1

def sizes : List Node → Nat
  | [] => 0
  | n :: ns => size n + sizes ns

def pairSizes : List (Node × Node) → Nat
  | [] => 0
  | (k, v) :: ps => size k + size v + pairSizes ps

end

end Node

/-- More steps than any way through the document can take: no way passes an alias twice, and between
two aliases it only goes inwards. -/
def Stream.depth (s : Stream) : Nat :=
  let n := s.root.size + 2
  n * n

namespace Reading

variable {ε σ : Type}

def malformed {α : Type} : Reading ε α := throw .malformed

def report (i : Issue) : Reading ε Unit := modify fun t => { t with issues := i :: t.issues }

def visit (trail : Trail) : Reading ε Unit := do
  modify fun t =>
    { t with visited := t.visited + 1, aliased := t.aliased + (if trail.isEmpty then 0 else 1) }
  if (← get).isExcessive then malformed

/-- Visits a node and the node behind it if it is an alias. -/
def follow (trail : Trail) (n : Node) : Reading ε (Node × Trail) := do
  visit trail
  match n with
  | .reference _ id serial _ =>
    if trail.contains serial then malformed
    else
      let trail := serial :: trail
      match (← read).getD id none with
      | some target =>
        visit trail
        return (target, trail)
      | none => malformed
  | _ => return (n, trail)

def scalar (tag text : String) : Reading ε Scalar :=
  if tag == Tag.str then return .string text
  else
    match resolve? tag text with
    | some v => return v
    | none => malformed

/-- Reports every key that was given before, and tells whether there was none. -/
def distinctKeys : List (Node × Node) → Reading ε Bool
  | [] => return true
  | (k, _) :: rest => do
    let again := rest.filter fun p => p.1.identity == k.identity
    again.forM fun p => report (.repeatedKey p.1.line k.identity.2 k.line)
    let others ← distinctKeys rest
    return again.isEmpty && others

def misfit (n : Node) (target : String) : Reading ε Unit :=
  report (.misfit n.line n.tag n.identity.2 target)

/-! ## Texts -/

/-- Reads a text: any scalar but null, as it is written. Binary data is decoded. -/
def text (trail : Trail) (n : Node) : Reading ε (Option String) := do
  let (n, _) ← follow trail n
  match n with
  | .scalar tag written _ =>
    match ← scalar tag written with
    | .null => return none
    | .string s => return some s
    | _ => return some written
  | .mapping _ pairs _ =>
    if ← distinctKeys pairs then misfit n "string"
    return none
  | _ =>
    misfit n "string"
    return none

/-! ## Mappings -/

/-- How the pairs of a mapping are read. -/
structure Plan (ε σ : Type) where
  key : Trail → Node → Reading ε (Option Scalar)
  /-- Reads a key as it counts for what is merged. -/
  loose : Trail → Node → Reading ε (Option Scalar)
  put : Trail → Scalar → Node → Node → σ → Reading ε σ

/-- Whether two keys are the same: no key is the same as one that is not a number. -/
def sameKey (a b : Scalar) : Bool :=
  match a, b with
  | .double x, .double y => x.same y
  | a, b => a == b

/-- The keys a mapping has so far, where another one is merged into it. -/
abbrev Met := Option (List Scalar)

/-- Takes in the pairs that are not merged, one after the other; keys met before are left out. -/
def ownEntries (plan : Plan ε σ) (trail : Trail) :
    List (Node × Node) → Met → σ → Reading ε (σ × Met)
  | [], met, acc => return (acc, met)
  | (k, v) :: rest, met, acc => do
    if k.isMerge then ownEntries plan trail rest met acc
    else
      match ← plan.key trail k with
      | none => ownEntries plan trail rest met acc
      | some key =>
        match met with
        | none => ownEntries plan trail rest met (← plan.put trail key k v acc)
        | some keys =>
          if keys.any (sameKey key) then ownEntries plan trail rest met acc
          else ownEntries plan trail rest (some (key :: keys)) (← plan.put trail key k v acc)

/-- Takes in a mapping: its own pairs first, then the last value it merges. That value is a mapping,
an alias of one, or a sequence of those; of its pairs only those with new keys count. -/
def entries (plan : Plan ε σ) :
    Nat → Trail → List (Node × Node) → Met → σ → Reading ε (σ × Met)
  | 0, _, _, _, _ => malformed
  | fuel + 1, trail, pairs, met, acc => do
    let (acc, met) ← ownEntries plan trail pairs met acc
    match (pairs.filter (·.1.isMerge)).getLast? with
    | none => return (acc, met)
    | some (_, merged) =>
      let keys ←
        match met with
        | some keys => pure keys
        | none => do
          let keys ← pairs.mapM fun p => plan.loose trail p.1
          pure (keys.filterMap id)
      let anchored ← read
      let take : Node → σ × Met → Reading ε (σ × Met) := fun n (acc, met) => do
        match n.target? anchored with
        | some (.mapping ..) =>
          match ← follow trail n with
          | (.mapping _ inner _, trail) =>
            if ← distinctKeys inner then entries plan fuel trail inner met acc
            else return (acc, met)
          | _ => malformed
        | _ => malformed
      match merged with
      | .sequence _ items _ => items.foldlM (fun state n => take n state) (acc, some keys)
      | n => take n (acc, some keys)

/-! ## Records -/

/-- A field of a record: its name and how its value is taken in. -/
structure Field (ε σ : Type) where
  name : String
  put : Trail → Node → σ → Reading ε σ

structure Shape (ε σ : Type) where
  /-- What messages call it. -/
  name : String
  /-- Whether other fields are an issue. -/
  strict : Bool
  fields : List (Field ε σ)

def textField (name : String) (put : String → σ → σ) : Field ε σ where
  name := name
  put trail n acc := do
    match ← text trail n with
    | some s => return put s acc
    | none => return acc

def fieldName (trail : Trail) (n : Node) : Reading ε (Option Scalar) :=
  return (← text trail n).map .string

/-- A key read as a value of any kind; a collection cannot be one. -/
def scalarKey (trail : Trail) (n : Node) : Reading ε (Option Scalar) := do
  match ← follow trail n with
  | (.scalar tag written _, _) => return some (← scalar tag written)
  | _ => malformed

/-- How the fields of a record are taken in. The state is the record and the names seen so far. -/
def fieldPlan (shape : Shape ε σ) : Plan ε (σ × List String) where
  key := fieldName
  loose := scalarKey
  put trail key k v state := do
    let (acc, seen) := state
    match key with
    | .string name =>
      match shape.fields.find? (·.name == name) with
      | some field =>
        if seen.contains name then
          report (.fieldTwice k.line name shape.name)
          return state
        else return (← field.put trail v acc, name :: seen)
      | none =>
        if shape.strict then report (.unknownField k.line name shape.name)
        return state
    | _ => return state

/-- Reads a record from a node that is no alias. -/
def recordAt (fuel : Nat) (shape : Shape ε σ) (init : σ) (trail : Trail) (n : Node) :
    Reading ε (Option σ) := do
  match n with
  | .scalar tag written _ =>
    if (← scalar tag written) != .null then misfit n shape.name
    return none
  | .mapping _ pairs _ =>
    if ← distinctKeys pairs then
      let ((acc, _), _) ← entries (fieldPlan shape) fuel trail pairs none (init, [])
      return some acc
    else return none
  | _ =>
    misfit n shape.name
    return none

def record (fuel : Nat) (shape : Shape ε σ) (init : σ) (trail : Trail) (n : Node) :
    Reading ε (Option σ) := do
  let (n, trail) ← follow trail n
  recordAt fuel shape init trail n

/-- Reads a list of records; those that are null are left out. -/
def records (fuel : Nat) (shape : Shape ε σ) (init : σ) (trail : Trail) (n : Node) :
    Reading ε (Option (List σ)) := do
  let (n, trail) ← follow trail n
  let name := "[]" ++ shape.name
  match n with
  | .scalar tag written _ =>
    if (← scalar tag written) != .null then
      misfit n name
      return none
    else return some []
  | .sequence _ items _ =>
    return some ((← items.mapM (record fuel shape init trail)).filterMap id)
  | .mapping _ pairs _ =>
    if ← distinctKeys pairs then misfit n name
    return none
  | .reference .. => return none

end Reading

/-- Runs a reading from the start; issues it met are its fault. -/
def Reading.run {ε α : Type} (r : Reading ε α) (anchored : Array (Option Node)) :
    Except (Fault ε) α := do
  let (a, t) ← StateT.run (ReaderT.run r anchored) Tally.start
  if t.issues.isEmpty then return a else throw (.issues t.issues.reverse)

end Arbor.Yaml
