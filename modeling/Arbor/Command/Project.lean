import Arbor.Package.Program

/-!
The project a command works on: finding its manifest, its lockfile and the cache, and loading it.

A manifest is looked for in a directory and then in the directories above it, the nearest one first.
-/

set_option autoImplicit false

namespace Arbor.Command

open Package (Manifest Lockfile Program)

/-- Where a command runs. -/
structure Setting where
  /-- The working directory. -/
  here : String
  /-- The home directory of the user, empty if there is none. -/
  userHome : String
  /-- The directory of the tool, if it is set. -/
  toolHome : String
  input : List UInt8
  now : String
  /-- How many steps an evaluation may take, and how many packages may be cloned on a way through the
  dependencies. -/
  fuel : Nat
  /-- What repositories are cloned from. -/
  remote : Package.Remote := .unreachable

inductive ProjectError where
  | notFound
  | search (error : Files.Error)
  | manifest (error : Package.ManifestError)
  | lockMissing (name : String)
  | lockUnreadable (path : String) (error : Package.LockfileError)
  | lockRoot (root name : String)
  | noHome
  | load (error : Package.LoadError)

/-- That the root of a lockfile is not the name of the manifest beside it. -/
def rootMismatch (root name : String) : String :=
  "lockfile root " ++ Text.quote root ++ " does not match manifest name " ++ Text.quote name

def ProjectError.text : ProjectError → String
  | notFound => Manifest.fileName ++ " not found"
  | search e => e.text
  | manifest e => e.text
  | lockMissing name =>
    Lockfile.fileName ++ " missing for " ++ Text.quote name ++ "; run `lorgn deps install`"
  | lockUnreadable path e => "failed to read lockfile " ++ path ++ ": " ++ e.text
  | lockRoot root name => rootMismatch root name
  | noHome => "resolve user home: $HOME is not defined"
  | load e => e.text

/-! ## Finding the manifest -/

/-- The manifest of a directory or of the nearest directory above it that has one. What is not there,
or is a directory, is passed over; any other failure to look ends the search. -/
def findManifest (t : Files.Tree) : Files.Place → Except ProjectError String
  | [] => examine [] (.error .notFound)
  | e :: up => examine (e :: up) (findManifest t up)
where
  /-- The manifest of a directory, or else the given answer. -/
  examine (p : Files.Place) (above : Except ProjectError String) : Except ProjectError String :=
    let candidate := Files.Place.path (Manifest.fileName :: p)
    match t.look .stat "/" candidate with
    | .ok (.file _) => .ok candidate
    | .ok .directory => above
    | .error e => if e.reason == .missing then above else .error (.search e)

/-- The manifest for a start: that file itself, or the one found from that directory. -/
def manifestFrom (t : Files.Tree) (s : Setting) (start : String) : Except ProjectError Manifest := do
  let full := Files.absolute s.here (if start.isEmpty then s.here else start)
  match t.look .stat s.here full with
  | .ok (.file _) => (Manifest.load t s.here full).mapError .manifest
  | _ =>
    let path ← findManifest t (Files.cleanElements full).reverse
    (Manifest.load t s.here path).mapError .manifest

/-! ## Lockfile and cache -/

def lockfilePath (m : Manifest) : String := Files.join m.directory Lockfile.fileName

/-- The lockfile beside a manifest. Only a manifest without repositories can do without. -/
def lockfileFor (t : Files.Tree) (s : Setting) (m : Manifest) :
    Except ProjectError (Option Lockfile) :=
  match Lockfile.load t s.here (lockfilePath m) with
  | .ok l => if l.root = m.name then .ok (some l) else .error (.lockRoot l.root m.name)
  | .error e =>
    if e.isMissing then (if m.needsGit then .error (.lockMissing m.name) else .ok none)
    else .error (.lockUnreadable (lockfilePath m) e)

/-- The directory of the cache: the one that is set, or one in the home directory. -/
def cacheDirectory (s : Setting) : Except ProjectError String :=
  let set := Text.trim s.toolHome
  if !set.isEmpty then .ok (Files.absolute s.here set)
  else if s.userHome.isEmpty then .error .noHome
  else .ok (Files.join s.userHome ".lorgn")

/-! ## Loading -/

/-- What is needed to load a program besides its files. -/
def prepare (t : Files.Tree) (s : Setting) (start : String) :
    Except ProjectError (Manifest × Package.Circumstances) := do
  let m ← manifestFrom t s start
  let lock ← lockfileFor t s m
  let cache ← if m.needsGit || lock.isSome then (cacheDirectory s).map some else pure none
  return (m, ⟨s.here, cache, lock, false⟩)

/-- The program found from a start, and the files afterwards. -/
def loadProgram (t : Files.Tree) (s : Setting) (start : String) :
    Except ProjectError Program × Files.Tree :=
  match prepare t s start with
  | .error e => (.error e, t)
  | .ok (m, c) =>
    let (r, t) := Program.load c t (some m) s.remote s.fuel
    (r.mapError .load, t)

def optionalProgram (t : Files.Tree) (s : Setting) :
    Except ProjectError (Option Program) × Files.Tree :=
  match loadProgram t s "" with
  | (.error .notFound, t) => (.ok none, t)
  | (.error e, t) => (.error e, t)
  | (.ok p, t) => (.ok (some p), t)

end Arbor.Command
