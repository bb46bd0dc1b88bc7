import Arbor.Files.Tree
import Arbor.Package.Manifest.Basic
import Arbor.Yaml.Value

/-!
Reading a manifest from YAML.

Unknown fields are an issue at the top of a manifest only. The entry point, the authors, the modules
and the dependencies may be written in several ways and have readers of their own; what those refuse
ends the reading, whatever was found before. A part that is tagged as null passes by its reader, and
if it is a collection all the same it is read by its form alone.
-/

set_option autoImplicit false

namespace Arbor.Package

open Yaml (Trail Reading Fault)

inductive Refusal where
  | entryText (text : String)
  | entryFields (fault : Fault Empty)
  | entryKind
  | modulesKind
  | moduleFile (name : String) (fault : Fault Empty)
  | dependenciesKind
  | unnamedDependency
  | dependencyKind (name : String)
  | dependencyFields (name : String) (fault : Fault Empty)
  | authorsKind

def Refusal.text : Refusal → String
  | entryText s => "manifest: entry " ++ Text.quote s ++ " must be written as module.function"
  | entryFields fault => "manifest: entry: " ++ fault.text nofun
  | entryKind => "manifest: entry must be a string or mapping"
  | modulesKind => "manifest: modules must be a mapping"
  | moduleFile name fault => "manifest: module " ++ Text.quote name ++ ": " ++ fault.text nofun
  | dependenciesKind => "manifest: dependencies must be a mapping"
  | unnamedDependency => "manifest: dependencies must not use empty keys"
  | dependencyKind name =>
    "manifest: dependency " ++ Text.quote name ++ ": expected a path string or a mapping"
  | dependencyFields name fault =>
    "manifest: dependency " ++ Text.quote name ++ ": " ++ fault.text nofun
  | authorsKind => "manifest: expected string or list of strings"

namespace Draft

/-- What a reader of a part gives, or why it gives nothing. -/
abbrev Part := Except (Fault Refusal)

/-- A fault of a part that is not refused. -/
def passed {α : Type} (r : Except (Fault Empty) α) : Part α := r.mapError (·.widen nofun)

/-- A fault of a part that is refused. -/
def refusing {α : Type} (reason : Fault Empty → Refusal) (r : Except (Fault Empty) α) : Part α :=
  r.mapError fun fault => .refused (reason fault)

section

variable (anchored : Array (Option Yaml.Node))

/-- A text in a part, empty if it is null. -/
def textOf (n : Yaml.Node) : Except (Fault Empty) String :=
  ((Reading.text [] n).run anchored).map (·.getD "")

/-- A mapping in a part with fields that are all texts; other fields do not matter. -/
def fieldsOf {σ : Type} (fuel : Nat) (shape : Reading.Shape Empty σ) (init : σ) (n : Yaml.Node) :
    Except (Fault Empty) σ :=
  ((Reading.record fuel shape init [] n).run anchored).map (·.getD init)

/-- The name of a record in messages, made of its fields. -/
def recordName (fields : List (String × String)) : String :=
  let field := fun ((label, key) : String × String) =>
    label ++ " string " ++ Text.quote ("yaml:" ++ Text.quote key)
  "struct \x7b " ++ String.intercalate "; " (fields.map field) ++ " \x7d"

/-! ## Entry point -/

def entryShape : Reading.Shape Empty EntryPoint where
  name := recordName [("Module", "module"), ("Function", "function")]
  strict := false
  fields :=
    [Reading.textField "module" fun s e => { e with module := s },
     Reading.textField "function" fun s e => { e with function := s }]

/-- The parts before and after the last point, if neither is empty. -/
def splitEntry? (s : List Char) : Option EntryPoint :=
  match s.reverse.span (· != '.') with
  | (after, '.' :: before) =>
    if after.isEmpty || before.isEmpty then none
    else some ⟨String.ofList before.reverse, String.ofList after.reverse⟩
  | _ => none

def readEntry (fuel : Nat) : Yaml.Node → Part EntryPoint
  | .scalar _ written _ =>
    let s := Text.trimChars written.toList
    match splitEntry? s with
    | some e => .ok e
    | none => .error (.refused (.entryText (String.ofList s)))
  | .mapping tag pairs line => do
    let e ← refusing .entryFields
      (fieldsOf anchored fuel entryShape ⟨"", ""⟩ (.mapping tag pairs line))
    return ⟨Text.trim e.module, Text.trim e.function⟩
  | _ => .error (.refused .entryKind)

/-! ## Authors -/

/-- The authors: one text, or a list of texts. -/
def readAuthors : Yaml.Node → Part (List String)
  | .scalar _ written _ =>
    let s := Text.trim written
    .ok (if s.isEmpty then [] else [s])
  | .sequence _ items _ => items.mapM fun n => do return Text.trim (← passed (textOf anchored n))
  | _ => .error (.refused .authorsKind)

/-! ## Modules -/

def readModules : Yaml.Node → Part (List (String × String))
  | .mapping _ pairs _ =>
    pairs.mapM fun (k, v) => do
      let name ← passed (textOf anchored k)
      let file ← refusing (.moduleFile name) (textOf anchored v)
      return (Text.trim name, Text.trim file)
  | _ => .error (.refused .modulesKind)

/-! ## Dependencies -/

def dependencyFields {ε : Type} : List (Reading.Field ε Dependency) :=
  [Reading.textField "git" fun s d => { d with git := s },
   Reading.textField "rev" fun s d => { d with rev := s },
   Reading.textField "tag" fun s d => { d with tag := s },
   Reading.textField "branch" fun s d => { d with branch := s },
   Reading.textField "path" fun s d => { d with path := s }]

def dependencyShape : Reading.Shape Empty Dependency where
  name := recordName
    [("Git", "git"), ("Rev", "rev"), ("Tag", "tag"), ("Branch", "branch"), ("Path", "path")]
  strict := false
  fields := dependencyFields

/-- A dependency: a path, fields, or null. -/
def readDependency (fuel : Nat) (name : String) : Yaml.Node → Part (Option Dependency)
  | .scalar tag written _ =>
    if tag == Yaml.Tag.null then .ok none
    else .ok (some { Dependency.blank with path := Text.trim written })
  | .mapping tag pairs line => do
    let d ← refusing (.dependencyFields name)
      (fieldsOf anchored fuel dependencyShape Dependency.blank (.mapping tag pairs line))
    return some ⟨Text.trim d.git, Text.trim d.rev, Text.trim d.tag, Text.trim d.branch,
      Text.trim d.path⟩
  | _ => .error (.refused (.dependencyKind name))

def readDependencies (fuel : Nat) : Yaml.Node → Part (Table (Option Dependency))
  | .mapping _ pairs _ =>
    pairs.foldlM (fun t (k, v) => do
      let name := Text.trim (← passed (textOf anchored k))
      if name.isEmpty then throw (.refused .unnamedDependency)
      return t.insert name (← readDependency anchored fuel name v)) []
  | _ => .error (.refused .dependenciesKind)

end

/-! ## Collections tagged as null -/

/-- Reads a collection by its form alone: what it changes in a draft. -/
abbrev Bare := Trail → Yaml.Node → Draft → Reading Refusal Draft

/-- No collection fits. -/
def bareMisfit (target : String) : Bare := fun _ n d => do
  let fits ← match n with
    | .mapping _ pairs _ => Reading.distinctKeys pairs
    | _ => pure true
  if fits then Reading.misfit n target
  return d

/-- A list of texts as they stand, nulls left out. -/
def bareAuthors : Bare := fun trail n d => do
  match n with
  | .sequence _ items _ =>
    let texts ← items.mapM (Reading.text trail)
    return { d with authors := texts.filterMap id }
  | _ => bareMisfit "driver.stringList" trail n d

/-- A mapping without any known field. -/
def bareModules (fuel : Nat) : Bare := fun trail n d => do
  let _ ← Reading.recordAt fuel ⟨"driver.moduleMap", true, []⟩ () trail n
  return d

/-- A dependency that has no other fields. -/
def bareDependencyShape : Reading.Shape Refusal Dependency where
  name := "driver.DependencySpec"
  strict := true
  fields := dependencyFields

/-- How dependencies with fields as they stand are taken in. -/
def barePlan (fuel : Nat) : Reading.Plan Refusal (Table (Option Dependency)) where
  key := Reading.fieldName
  loose := Reading.scalarKey
  put trail key _ v t := do
    let (v, trail) ← Reading.follow trail v
    match key with
    | .string name =>
      if v.tag == Yaml.Tag.null then
        match v with
        | .scalar tag written _ =>
          let _ ← Reading.scalar tag written
          return t.insert name none
        | _ =>
          let _ ← bareMisfit "*driver.DependencySpec" trail v Draft.blank
          return t
      else
        match ← Reading.recordAt fuel bareDependencyShape Dependency.blank trail v with
        | some d => return t.insert name (some d)
        | none => return t
    | _ => return t

def bareDependencies (fuel : Nat) : Bare := fun trail n d => do
  match n with
  | .mapping _ pairs _ =>
    if ← Reading.distinctKeys pairs then
      let (t, _) ← Reading.entries (barePlan fuel) fuel trail pairs none []
      return { d with dependencies := t }
    else return d
  | _ => bareMisfit "driver.dependencyMap" trail n d

/-! ## The whole manifest -/

/-- A field with a reader of its own, which never sees anything tagged as null. -/
def partField {α : Type} (name : String) (part : Array (Option Yaml.Node) → Yaml.Node → Part α)
    (put : α → Draft → Draft) (bare : Bare) : Reading.Field Refusal Draft where
  name := name
  put trail n acc := do
    let (n, trail) ← Reading.follow trail n
    if n.tag == Yaml.Tag.null then
      match n with
      | .scalar tag written _ =>
        let _ ← Reading.scalar tag written
        return acc
      | _ => bare trail n acc
    else
      match part (← read) n with
      | .ok a => return put a acc
      | .error (.issues list) =>
        list.forM Reading.report
        return acc
      | .error fault => throw fault

def shape (fuel : Nat) : Reading.Shape Refusal Draft where
  name := "driver.manifestFile"
  strict := true
  fields :=
    [Reading.textField "name" fun s d => { d with name := s },
     Reading.textField "version" fun s d => { d with version := s },
     partField "authors" readAuthors (fun a d => { d with authors := a }) bareAuthors,
     partField "entry" (readEntry · fuel) (fun e d => { d with entry := some e })
       (bareMisfit "*driver.entryYAML"),
     partField "modules" readModules (fun m d => { d with modules := m }) (bareModules fuel),
     partField "dependencies" (readDependencies · fuel) (fun t d => { d with dependencies := t })
       (bareDependencies fuel)]

end Draft

inductive ManifestError where
  | emptyPath
  | unopened (error : Files.Error)
  | empty (path : String)
  | unreadable (path : String) (fault : Fault Refusal)
  | invalid (problems : List Problem)

def ManifestError.text : ManifestError → String
  | emptyPath => "manifest: empty path"
  | unopened e => "manifest: open " ++ e.path ++ ": " ++ e.text
  | empty path => "manifest: " ++ path ++ " is empty"
  | unreadable path fault => "manifest: parse " ++ path ++ ": " ++ fault.text Refusal.text
  | invalid problems => problemReport (problems.map (·.text))

/-- The draft that bytes hold, if they hold a document. -/
def Draft.parse (bytes : List UInt8) : Except (Fault Refusal) (Option Draft) := do
  match ← Draft.passed (Yaml.firstDocument bytes) with
  | none => return none
  | some s =>
    let read : Reading Refusal (Option Draft) := do
      Reading.visit []
      Reading.record s.depth (Draft.shape s.depth) Draft.blank [] s.root
    return some ((← read.run s.anchored).getD Draft.blank)

/-- The manifest that bytes hold; the path is where they come from. -/
def Manifest.parse (bytes : List UInt8) (path : String) : Except ManifestError Manifest := do
  match ← (Draft.parse bytes).mapError (.unreadable path) with
  | none => throw (.empty path)
  | some d => (d.manifest path).mapError .invalid

def Manifest.load (t : Files.Tree) (here path : String) : Except ManifestError Manifest := do
  if path.isEmpty then throw .emptyPath
  let full := Files.absolute here path
  match ← (t.look .open here full).mapError .unopened with
  | .directory => throw (.unreadable full .malformed)
  | .file bytes => Manifest.parse bytes full

end Arbor.Package
