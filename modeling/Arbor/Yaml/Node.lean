import Arbor.Yaml.Scalar
import Arbor.Yaml.Token

/-!
The nodes of a YAML document and how tokens make them up.

A node is a scalar, a sequence, a mapping or an alias. Every node has a tag, written or implied by
its form, and the number of its line. Anchored nodes are kept in a table of the document, where
aliases find them by number; an alias may stand inside the very node it refers to.
-/

set_option autoImplicit false

namespace Arbor.Yaml

inductive Node where
  | scalar (tag : String) (text : String) (line : Nat)
  | sequence (tag : String) (items : List Node) (line : Nat)
  | mapping (tag : String) (pairs : List (Node × Node)) (line : Nat)
  /-- Refers to the anchored node with that number; `serial` tells aliases apart. -/
  | reference (name : String) (target : Nat) (serial : Nat) (line : Nat)

/-- The first document of a stream. -/
structure Stream where
  root : Node
  anchored : Array (Option Node)

namespace Node

/-- The line of a node, counted from one. -/
def line : Node → Nat
  | scalar _ _ l => l
  | sequence _ _ l => l
  | mapping _ _ l => l
  | reference _ _ _ l => l

end Node

/-! ## Building nodes -/

/-- The state of building nodes. -/
structure Draft where
  tokens : List Token
  /-- What the handles of tags stand for. -/
  handles : List (String × String)
  /-- The number of the latest node with each anchor. -/
  anchors : List (String × Nat)
  anchored : Array (Option Node)
  aliases : Nat

/-- Building fails on the first token that does not fit. -/
abbrev Build := StateT Draft Option

namespace Build

def peek : Build Token := do
  match (← get).tokens with
  | [] => failure
  | t :: _ => return t

def drop : Build Unit := modify fun d => { d with tokens := d.tokens.tail }

/-- A scalar that is not written. -/
def blank (line : Nat) : Node := .scalar Tag.null "" (line + 1)

/-- Reserves a place for the node with an anchor. -/
def reserve (anchor : Option String) : Build (Option Nat) :=
  match anchor with
  | none => return none
  | some name => do
    let d ← get
    let id := d.anchored.size
    set { d with anchors := (name, id) :: d.anchors, anchored := d.anchored.push none }
    return some id

/-- Puts a node in its place. -/
def settle (place : Option Nat) (n : Node) : Build Node := do
  match place with
  | none => return n
  | some id =>
    modify fun d => { d with anchored := d.anchored.setIfInBounds id (some n) }
    return n

def anchor? : Build (Option String) := do
  match (← peek).kind with
  | .anchor name =>
    drop
    return some name
  | _ => return none

/-- The full form of a tag in front of a node. -/
def tag? : Build (Option String) := do
  match (← peek).kind with
  | .tag handle suffix =>
    drop
    if handle.isEmpty then return some suffix
    else
      match (← get).handles.lookup handle with
      | some expansion => return some (expansion ++ suffix)
      | none => failure
  | _ => return none

/-- An anchor and a tag in either order. -/
def properties : Build (Option String × Option String) := do
  match ← anchor? with
  | some a => return (some a, ← tag?)
  | none =>
    let t ← tag?
    return (← anchor?, t)

/-- The tag of a node: the one written, or else the one its form implies. -/
def tagOr (written : Option String) (implied : String) : String :=
  match written with
  | some t => if t.isEmpty || t == "!" then implied else Tag.short t
  | none => implied

mutual

/-- A node. In block context collections may be given by indentation, and where a mapping is open a
sequence may stand at the indentation of its key. -/
def node (block indentless : Bool) : Nat → Build Node
  | 0 => failure
  | fuel + 1 => do
    let first ← peek
    let line := first.line + 1
    match first.kind with
    | .reference name =>
      drop
      let d ← get
      match d.anchors.lookup name with
      | none => failure
      | some target =>
        set { d with aliases := d.aliases + 1 }
        return .reference name target d.aliases line
    | _ =>
      let (anchor, tag) ← properties
      let t ← peek
      match t.kind with
      | .scalar text plain =>
        drop
        let place ← reserve anchor
        let implied := if plain then plainTag text else Tag.str
        settle place (.scalar (tagOr tag implied) text line)
      | .flowSequenceStart =>
        drop
        let place ← reserve anchor
        let items ← flowItems fuel true
        settle place (.sequence (tagOr tag Tag.seq) items line)
      | .flowMappingStart =>
        drop
        let place ← reserve anchor
        let pairs ← flowPairs fuel true
        settle place (.mapping (tagOr tag Tag.map) pairs line)
      | kind =>
        if indentless && kind == .blockEntry then
          let place ← reserve anchor
          let items ← indentlessItems fuel
          settle place (.sequence (tagOr tag Tag.seq) items line)
        else if block && kind == .blockSequenceStart then
          drop
          let place ← reserve anchor
          let items ← blockItems fuel
          settle place (.sequence (tagOr tag Tag.seq) items line)
        else if block && kind == .blockMappingStart then
          drop
          let place ← reserve anchor
          let pairs ← blockPairs fuel
          settle place (.mapping (tagOr tag Tag.map) pairs line)
        else if anchor.isSome || tag.isSome then
          let place ← reserve anchor
          settle place (.scalar (tagOr tag Tag.null) "" line)
        else failure

def blockItems : Nat → Build (List Node)
  | 0 => failure
  | fuel + 1 => do
    let t ← peek
    match t.kind with
    | .blockEntry =>
      drop
      let next ← peek
      let item ←
        if next.kind == .blockEntry || next.kind == .blockEnd then pure (blank t.line)
        else node true false fuel
      return item :: (← blockItems fuel)
    | .blockEnd =>
      drop
      return []
    | _ => failure

/-- The entries of a sequence at the indentation of the key before it. -/
def indentlessItems : Nat → Build (List Node)
  | 0 => failure
  | fuel + 1 => do
    let t ← peek
    if t.kind == .blockEntry then
      drop
      let next ← peek
      let item ←
        if [.blockEntry, .key, .value, .blockEnd].contains next.kind then pure (blank t.line)
        else node true false fuel
      return item :: (← indentlessItems fuel)
    else return []

def blockPairs : Nat → Build (List (Node × Node))
  | 0 => failure
  | fuel + 1 => do
    let t ← peek
    match t.kind with
    | .key =>
      drop
      let key ← blockPart fuel t.line
      let v ← peek
      let value ←
        if v.kind == .value then
          drop
          blockPart fuel v.line
        else pure (blank v.line)
      return (key, value) :: (← blockPairs fuel)
    | .blockEnd =>
      drop
      return []
    | _ => failure

/-- A key or value of a block mapping, which may be missing. -/
def blockPart : Nat → Nat → Build Node
  | 0, _ => failure
  | fuel + 1, line => do
    let next ← peek
    if [.key, .value, .blockEnd].contains next.kind then pure (blank line)
    else node true true fuel

/-- The items of a sequence in brackets. A key makes an item a mapping of one pair. -/
def flowItems : Nat → Bool → Build (List Node)
  | 0, _ => failure
  | fuel + 1, first => do
    let t ← peek
    if t.kind == .flowSequenceEnd then
      drop
      return []
    else
      if !first then
        if t.kind == .flowEntry then drop else failure
      let t ← peek
      if t.kind == .flowSequenceEnd then
        drop
        return []
      else if t.kind == .key then
        drop
        let pair ← flowItemPair fuel
        let item := Node.mapping Tag.map [pair] (t.line + 1)
        return item :: (← flowItems fuel false)
      else
        let item ← node false false fuel
        return item :: (← flowItems fuel false)

/-- The one pair of a mapping inside a sequence in brackets, after its key token. -/
def flowItemPair : Nat → Build (Node × Node)
  | 0 => failure
  | fuel + 1 => do
    let t ← peek
    let key ←
      if [.value, .flowEntry, .flowSequenceEnd].contains t.kind then do
        drop
        pure (blank t.line)
      else node false false fuel
    let v ← peek
    if v.kind == .value then
      drop
      let next ← peek
      if next.kind == .flowEntry || next.kind == .flowSequenceEnd then return (key, blank next.line)
      else return (key, ← node false false fuel)
    else return (key, blank v.line)

def flowPairs : Nat → Bool → Build (List (Node × Node))
  | 0, _ => failure
  | fuel + 1, first => do
    let t ← peek
    if t.kind == .flowMappingEnd then
      drop
      return []
    else
      if !first then
        if t.kind == .flowEntry then drop else failure
      let t ← peek
      if t.kind == .flowMappingEnd then
        drop
        return []
      else if t.kind == .key then
        drop
        let next ← peek
        let key ←
          if [.value, .flowEntry, .flowMappingEnd].contains next.kind then pure (blank next.line)
          else node false false fuel
        let v ← peek
        if v.kind == .value then
          drop
          let next ← peek
          let value ←
            if next.kind == .flowEntry || next.kind == .flowMappingEnd then pure (blank next.line)
            else node false false fuel
          return (key, value) :: (← flowPairs fuel false)
        else return (key, blank v.line) :: (← flowPairs fuel false)
      else
        let key ← node false false fuel
        let v ← peek
        return (key, blank v.line) :: (← flowPairs fuel false)

end

/-- The directives in front of a document; each may be given once. -/
def directives : Nat → Bool → List (String × String) → Build (List (String × String))
  | 0, _, _ => failure
  | fuel + 1, versioned, handles => do
    match (← peek).kind with
    | .version major minor =>
      if versioned || major != 1 || minor != 1 then failure
      else
        drop
        directives fuel true handles
    | .tagHandle handle expansion =>
      if (handles.lookup handle).isSome then failure
      else
        drop
        directives fuel versioned ((handle, expansion) :: handles)
    | _ => return handles

/-- The handles every document has, after the ones it declares. -/
def standardHandles : List (String × String) := [("!", "!"), ("!!", Tag.standard)]

/-- The first document, or none if the stream is empty. -/
def document (fuel : Nat) : Build (Option Node) := do
  drop
  let first ← peek
  match first.kind with
  | .streamEnd => return none
  | .version .. | .tagHandle .. | .documentStart =>
    let handles ← directives fuel false []
    modify fun d => { d with handles := handles ++ standardHandles }
    if (← peek).kind != .documentStart then failure
    else
      drop
      let t ← peek
      let root ←
        match t.kind with
        | .version .. | .tagHandle .. | .documentStart | .documentEnd | .streamEnd =>
          pure (blank t.line)
        | _ => node true false fuel
      let _ ← peek
      return some root
  | _ =>
    let root ← node true false fuel
    let _ ← peek
    return some root

end Build

/-- The first document of a stream of characters: nothing if it is malformed, and no document if
there is none. -/
def compose? (cs : List Char) : Option (Option Stream) := do
  let ts := tokens cs
  let draft : Draft := ⟨ts, Build.standardHandles, [], #[], 0⟩
  let (root, d) ← (Build.document (4 * ts.length + 16)).run draft
  return root.map fun root => ⟨root, d.anchored⟩

end Arbor.Yaml
