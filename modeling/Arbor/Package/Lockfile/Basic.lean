import Arbor.Package.Manifest.Basic

/-!
Lockfiles: which source and commit each dependency of a package was taken from.

A lockfile is a list of packages, of which some may be blank. `put` replaces the package of the same
name or appends one, and `update` also tells whether that changed anything; `find?` looks a name up;
`normalize` brings names and texts into their written form and orders the packages by name, keeping
the order of packages with the same name.
-/

set_option autoImplicit false

namespace Arbor.Package

structure Locked where
  name : String
  source : String
  commit : String
  deriving DecidableEq, Repr

/-- The package with its name and texts as they are written. -/
def Locked.normalize (p : Locked) : Locked :=
  ⟨packageName p.name, Text.trim p.source, Text.trim p.commit⟩

structure Lockfile where
  path : String
  root : String
  generated : String
  tool : String
  packages : List (Option Locked)
  deriving DecidableEq, Repr

namespace Lockfile

def fileName : String := "lorgn.lock"

/-- A lockfile without packages, made now. -/
def start (root tool now : String) : Lockfile := ⟨"", packageName root, now, Text.trim tool, []⟩

/-- The first package with that name. -/
def lookup (name : String) : List (Option Locked) → Option Locked
  | [] => none
  | none :: rest => lookup name rest
  | some p :: rest => if p.name = name then some p else lookup name rest

def find? (l : Lockfile) (name : String) : Option Locked := lookup (packageName name) l.packages

/-- Puts a package in place of the first one with its name, or at the end. -/
def replace (p : Locked) : List (Option Locked) → List (Option Locked)
  | [] => [some p]
  | none :: rest => none :: replace p rest
  | some q :: rest => if q.name = p.name then some p :: rest else some q :: replace p rest

def put (l : Lockfile) (p : Locked) : Lockfile :=
  { l with packages := replace p.normalize l.packages }

/-- Puts a package, which may be blank, and tells whether the packages changed: a blank one changes
nothing, and neither does one that stands there already. -/
def update (l : Lockfile) : Option Locked → Bool × Lockfile
  | none => (false, l)
  | some p => (l.find? p.name != some p.normalize, l.put p)

/-- Inserts a package behind those whose name is not greater. -/
def insertByName (p : Locked) : List Locked → List Locked
  | [] => [p]
  | q :: rest => if p.name < q.name then p :: q :: rest else q :: insertByName p rest

/-- Packages in the order of their names; those with the same name keep their order. -/
def sortByName (ps : List Locked) : List Locked :=
  ps.foldl (fun sorted p => insertByName p sorted) []

/-- The packages in their written form and order. -/
def entries (l : Lockfile) : List Locked :=
  sortByName ((l.packages.filterMap id).map Locked.normalize)

def normalize (l : Lockfile) : Lockfile :=
  { l with root := packageName l.root, tool := Text.trim l.tool, packages := l.entries.map some }

end Lockfile

end Arbor.Package
