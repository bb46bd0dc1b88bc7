import Arbor.Format
import Arbor.Package.Checkout
import Arbor.Package.Lockfile.File
import Arbor.Package.Manifest.Read

/-!
Programs: a package with everything it depends on.

Loading goes through the dependencies of a manifest in the order of their names and then takes its
modules in the order written, so modules come after those of the packages they depend on. Every
package is taken once, a package must not depend on itself, and a module must not be declared by two
packages. The way through the packages is a `Walk`, whatever is done on it.
-/

set_option autoImplicit false

namespace Arbor.Package

structure SourceModule where
  name : String
  package : String
  file : String
  tree : Module

structure Resolved where
  name : String
  directory : String
  source : String
  commit : String
  deriving DecidableEq, Repr

/-- A package with everything it depends on. -/
structure Program where
  manifest : Manifest
  modules : List SourceModule
  dependencies : List Resolved

/-- The first module of that name. -/
def Program.module? (p : Program) (name : String) : Option SourceModule :=
  p.modules.find? (·.name == name)

inductive LoadError where
  | noManifest
  | cancelled
  | cycle (names : List String)
  | noFetcher (name : String)
  | checkout (name : String) (error : CheckoutError)
  | unfound (name : String) (error : Files.Error)
  | noDirectory (name : String) (path : String)
  | manifest (name : String) (error : ManifestError)
  | declaredTwice (name : String) (first second : String)
  | moduleFormat (name : String) (error : DecodeError)
  | moduleFile (name : String) (error : Files.Error)
  | moduleTree (name : String) (file : String) (error : DecodeError)
  /-- The way through the dependencies is longer than there are files. -/
  | tooDeep

def LoadError.text : LoadError → String
  | noManifest => "loader: nil manifest"
  | cancelled => "context canceled"
  | cycle names => "loader: dependency cycle: " ++ String.intercalate " -> " names
  | noFetcher name =>
    "loader: dependency " ++ Text.quote name ++ " needs git but no fetcher is configured"
  | checkout name e => "loader: dependency " ++ Text.quote name ++ ": " ++ e.text
  | unfound name e => "loader: dependency " ++ Text.quote name ++ ": " ++ e.text
  | noDirectory name path =>
    "loader: dependency " ++ Text.quote name ++ ": " ++ path ++ " is not a directory"
  | manifest name e => "loader: dependency " ++ Text.quote name ++ ": " ++ e.text
  | declaredTwice name first second =>
    "loader: module " ++ Text.quote name ++ " declared by both " ++ first ++ " and " ++ second
  | moduleFormat name e => "loader: module " ++ Text.quote name ++ ": " ++ e.text
  | moduleFile name e => "loader: module " ++ Text.quote name ++ ": " ++ e.text
  | moduleTree name file e =>
    "loader: module " ++ Text.quote name ++ " (" ++ file ++ "): " ++ e.text
  | tooDeep => "loader: dependencies nested too deeply"

/-! ## The way through packages -/

/-- What is done on a way through packages `π`: at one of them, and at its dependencies `δ`, each of
which leads to a `ρ`. -/
structure Walk (μ : Type → Type) (π δ ρ : Type) where
  manifest : π → Manifest
  dependencies : π → List δ
  fail : LoadError → μ Unit
  /-- Whether the manifest at a path was gone through. -/
  isDone : String → μ Bool
  follow : Manifest → δ → μ ρ
  target : ρ → π
  /-- What is done with a dependency after its package was gone through. -/
  record : ρ → μ Unit
  /-- What is done with a module. -/
  take : Manifest → String × String → μ Unit
  finish : String → μ Unit

/-- Follows a dependency of a package and goes through the package it leads to. -/
def Walk.through {μ : Type → Type} [Monad μ] {π δ ρ : Type} (w : Walk μ π δ ρ) (go : π → μ Unit)
    (m : Manifest) (d : δ) : μ Unit := do
  let x ← w.follow m d
  go (w.target x)
  w.record x

/-- Goes through a package. The chain holds the paths and names of the manifests that led to it, the
latest first. -/
def Walk.go {μ : Type → Type} [Monad μ] {π δ ρ : Type} (w : Walk μ π δ ρ) :
    Nat → List (String × String) → π → μ Unit
  | 0, _, _ => w.fail .tooDeep
  | fuel + 1, chain, p => do
    let m := w.manifest p
    let here := (m.path, m.name) :: chain
    if chain.any (·.1 == m.path) then w.fail (.cycle (here.map (·.2)).reverse)
    else if ← w.isDone m.path then return
    else
      (w.dependencies p).forM (w.through (w.go fuel here) m)
      m.modules.forM (w.take m)
      w.finish m.path

/-! ## Loading -/

/-- What loading depends on besides the files. -/
structure Circumstances where
  here : String
  /-- The directory of the cache, if repositories may be fetched. -/
  cache : Option String
  lock : Option Lockfile
  /-- Whether loading was called off. -/
  cancelled : Bool

/-- What has been loaded so far. -/
structure Progress where
  files : Files.Tree
  /-- The paths of the manifests that were gone through. -/
  done : List String
  modules : List SourceModule
  dependencies : List Resolved

def Progress.start (files : Files.Tree) : Progress := ⟨files, [], [], []⟩

/-- Loading steps keep what was done to the files even where they fail. -/
abbrev Loading := ExceptT LoadError (StateM Progress)

namespace Loading

def check {ε α : Type} (error : ε → LoadError) (r : Except ε α) : Loading α :=
  match r with
  | .ok a => return a
  | .error e => throw (error e)

def resolve (r : Remote) (c : Circumstances) (m : Manifest) (name : String) (d : Dependency) :
    Loading Resolved := do
  if d.isGit then
    match c.cache with
    | none => throw (.noFetcher name)
    | some cache =>
      let pinned := ((c.lock.bind (·.find? name)).map (·.commit)).getD ""
      let p ← get
      let (x, files) := Checkout.fetchFrom r p.files c.here cache name (some d) pinned
      set { p with files := files }
      let found ← check (.checkout name) x
      return ⟨name, found.directory, found.source, found.commit⟩
  else
    let path := m.resolve d.path
    match ← check (.unfound name) ((← get).files.look .stat c.here path) with
    | .file _ => throw (.noDirectory name path)
    | .directory => return ⟨name, path, "path:" ++ d.path, ""⟩

def takeModule (c : Circumstances) (m : Manifest) (name file : String) : Loading Unit := do
  let p ← get
  match p.modules.find? (·.name == name) with
  | some other => throw (.declaredTwice name other.package m.name)
  | none =>
    let file := m.resolve file
    let format ← check (.moduleFormat name) (Format.ofPath file)
    let bytes ← check (.moduleFile name) (p.files.read c.here file)
    let tree ← check (.moduleTree name file) (format.readModule bytes)
    let taken : SourceModule := ⟨name, m.name, file, tree⟩
    set { p with modules := p.modules ++ [taken] }

/-- Records a dependency, unless one of that name was recorded before. -/
def recordDependency (r : Resolved) : Loading Unit :=
  modify fun p =>
    if p.dependencies.any (·.name == r.name) then p
    else { p with dependencies := p.dependencies ++ [r] }

/-- Where a dependency leads, with what a manifest there is read as. -/
def follow {α : Type} (load : Files.Tree → (here path : String) → Except ManifestError α) (r : Remote)
    (c : Circumstances) (m : Manifest) (p : String × Dependency) : Loading (Resolved × α) := do
  if c.cancelled then throw .cancelled
  let found ← resolve r c m p.1 p.2
  let child ← check (.manifest p.1)
    (load (← get).files c.here (Files.join found.directory Manifest.fileName))
  return (found, child)

/-- The way of loading. -/
def walk (r : Remote) (c : Circumstances) :
    Walk Loading Manifest (String × Dependency) (Resolved × Manifest) where
  manifest := id
  dependencies := Manifest.dependencies
  fail e := throw e
  isDone path := return (← get).done.contains path
  follow := follow Manifest.load r c
  target := Prod.snd
  record x := recordDependency x.1
  take m q := takeModule c m q.1 q.2
  finish path := modify fun p => { p with done := path :: p.done }

end Loading

/-- The program of a manifest, if going through it succeeded, and the files. -/
def Program.collect {ε : Type} (m : Manifest) :
    Except ε Unit × Progress → Except ε Program × Files.Tree
  | (.ok (), p) => (.ok ⟨m, p.modules, p.dependencies⟩, p.files)
  | (.error e, p) => (.error e, p.files)

/-- The program of a manifest, and the files afterwards. Every manifest on a way through the
dependencies is a file of its own, so no way is longer than there are files, unless packages are cloned
on the way. Then it may have so many `more`. -/
def Program.load (c : Circumstances) (files : Files.Tree) (m : Option Manifest)
    (r : Remote := .unreachable) (more : Nat := 0) : Except LoadError Program × Files.Tree :=
  match m with
  | none => (.error .noManifest, files)
  | some m =>
    collect m (((Loading.walk r c).go (files.entries.length + 2 + more) [] m).run.run (.start files))

end Arbor.Package
