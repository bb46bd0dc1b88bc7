import Arbor.Files.Path
import Arbor.Table
import Arbor.Text.Blank
import Arbor.Text.Lower
import Arbor.Text.Quoted

/-!
Manifests: what a package is called, the files of its modules, the function it starts with and the
packages it depends on.

A `Draft` is what was written; `Draft.problems` lists everything wrong with it, in the order of the
fields, and a draft without problems is a `Manifest`.
-/

set_option autoImplicit false

namespace Arbor.Package

/-- The name of a package as the name of a directory. -/
def packageName (s : String) : String := String.ofList (Text.segment (Text.trimChars s.toList))

/-- Where a dependency comes from; fields that are not given are empty. -/
structure Dependency where
  git : String
  rev : String
  tag : String
  branch : String
  path : String
  deriving DecidableEq, Repr

namespace Dependency

def blank : Dependency := ⟨"", "", "", "", ""⟩

def isGit (d : Dependency) : Bool := !d.git.isEmpty

end Dependency

inductive DependencyProblem where
  | bothSources
  | noSource
  | pinWithoutGit
  | manyPins
  deriving DecidableEq, Repr

def DependencyProblem.text : DependencyProblem → String
  | bothSources => "path dependencies cannot also specify git"
  | noSource => "must specify git or path"
  | pinWithoutGit => "rev, tag and branch apply only to git dependencies"
  | manyPins => "only one of rev, tag or branch may be given"

def Dependency.problems (d : Dependency) : List DependencyProblem :=
  let pins := [d.rev, d.tag, d.branch].filter (!·.isEmpty)
  (if d.path.isEmpty then (if d.git.isEmpty then [.noSource] else [])
    else if d.git.isEmpty then [] else [.bothSources]) ++
  (if d.git.isEmpty && !pins.isEmpty then [.pinWithoutGit] else []) ++
  (if pins.length > 1 then [.manyPins] else [])

structure EntryPoint where
  module : String
  function : String
  deriving DecidableEq, Repr

def EntryPoint.text (e : EntryPoint) : String := e.module ++ "." ++ e.function

/-- A manifest as written. -/
structure Draft where
  name : String
  version : String
  authors : List String
  entry : Option EntryPoint
  /-- Names of modules and their files, in the order written. -/
  modules : List (String × String)
  /-- A dependency may be named without being described. -/
  dependencies : Table (Option Dependency)

def Draft.blank : Draft := ⟨"", "", [], none, [], []⟩

/-- A manifest without problems. -/
structure Manifest where
  path : String
  name : String
  version : String
  authors : List String
  entry : Option EntryPoint
  modules : List (String × String)
  dependencies : Table Dependency
  deriving DecidableEq

inductive Problem where
  | unnamed
  | emptyAuthor (index : Nat)
  | unnamedModule
  | moduleTwice (name : String)
  | moduleWithoutFile (name : String)
  | partialEntry
  | dependency (name : String) (problem : DependencyProblem)
  deriving DecidableEq, Repr

def Problem.text : Problem → String
  | unnamed => "name must be provided"
  | emptyAuthor i => "authors[" ++ toString i ++ "] must be a non-empty string"
  | unnamedModule => "modules must not use empty keys"
  | moduleTwice name => "module " ++ Text.quote name ++ " declared more than once"
  | moduleWithoutFile name => "module " ++ Text.quote name ++ " requires a file path"
  | partialEntry => "entry requires both module and function"
  | dependency name p => "dependencies." ++ name ++ ": " ++ p.text

/-- The report on a manifest with problems. -/
def problemReport (problems : List String) : String :=
  if problems.isEmpty then "manifest: invalid configuration"
  else "manifest validation failed:" ++ String.join (problems.map ("\n- " ++ ·))

namespace Draft

/-- The problems of modules, given the names seen before. -/
def moduleProblems : List String → List (String × String) → List Problem
  | _, [] => []
  | seen, (name, file) :: rest =>
    if name.isEmpty then .unnamedModule :: moduleProblems seen rest
    else if seen.contains name then .moduleTwice name :: moduleProblems seen rest
    else (if file.isEmpty then [.moduleWithoutFile name] else []) ++ moduleProblems (name :: seen) rest

/-- The problems of authors, the first of which has that number. -/
def authorProblems : Nat → List String → List Problem
  | _, [] => []
  | i, a :: rest => (if a.isEmpty then [.emptyAuthor i] else []) ++ authorProblems (i + 1) rest

/-- The problems of a dependency that may not be described. -/
def dependencyProblems (p : String × Option Dependency) : List Problem :=
  let problems :=
    match p.2 with
    | none => [DependencyProblem.noSource]
    | some d => d.problems
  problems.map (.dependency p.1)

def problems (d : Draft) : List Problem :=
  (if (packageName d.name).isEmpty then [.unnamed] else []) ++
  authorProblems 0 d.authors ++
  moduleProblems [] d.modules ++
  (match d.entry with
    | some e => if e.module.isEmpty || e.function.isEmpty then [.partialEntry] else []
    | none => []) ++
  d.dependencies.flatMap dependencyProblems

/-- The manifest at a path, or its problems. -/
def manifest (d : Draft) (path : String) : Except (List Problem) Manifest :=
  if d.problems.isEmpty then
    .ok {
      path := path
      name := packageName d.name
      version := Text.trim d.version
      authors := d.authors
      entry := d.entry
      modules := d.modules
      dependencies := d.dependencies.filterMap fun (name, dep) => dep.map (name, ·) }
  else .error d.problems

end Draft

namespace Manifest

def fileName : String := "lorgn.yml"

/-- The directory of the manifest, empty if its path is. -/
def directory (m : Manifest) : String :=
  if m.path.isEmpty then "" else Files.directory m.path

/-- A path of the manifest, which is taken from its directory. -/
def resolve (m : Manifest) (path : String) : String :=
  if Files.isAbsolute path then path else Files.join m.directory path

def modulePath? (m : Manifest) (name : String) : Option String :=
  (m.modules.lookup name).map m.resolve

def needsGit (m : Manifest) : Bool := m.dependencies.any (·.2.isGit)

end Manifest

end Arbor.Package
