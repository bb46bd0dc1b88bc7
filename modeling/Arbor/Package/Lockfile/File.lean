import Arbor.Files.Tree
import Arbor.Package.Lockfile.Basic
import Arbor.Yaml.Printer
import Arbor.Yaml.Value

/-!
Lockfiles on disk: the text of a lockfile, reading it back, and saving it in a tree of files.
-/

set_option autoImplicit false

namespace Arbor.Package

open Yaml (Fault Reading)

inductive LockfileError where
  | emptyPath
  | unopened (error : Files.Error)
  | empty (path : String)
  | unreadable (path : String) (fault : Fault Empty)
  | noLockfile
  | missingPath
  | unwritten (error : Files.Error)

namespace LockfileError

def text : LockfileError → String
  | emptyPath => "lockfile: empty path"
  | unopened e => e.text
  | empty path => "lockfile: parse " ++ path ++ ": EOF"
  | unreadable path fault => "lockfile: parse " ++ path ++ ": " ++ fault.text nofun
  | noLockfile => "lockfile: nil lockfile"
  | missingPath => "lockfile: missing path"
  | unwritten e => "lockfile: write " ++ e.path ++ ": " ++ e.text

def isMissing : LockfileError → Bool
  | unopened e => e.reason == .missing
  | _ => false

end LockfileError

namespace Lockfile

/-! ## Reading -/

def packageShape : Reading.Shape Empty Locked where
  name := "driver.lockfilePackage"
  strict := true
  fields :=
    [Reading.textField "name" fun s p => { p with name := s },
     Reading.textField "source" fun s p => { p with source := s },
     Reading.textField "commit" fun s p => { p with commit := s }]

def shape (fuel : Nat) : Reading.Shape Empty Lockfile where
  name := "driver.lockfileDisk"
  strict := true
  fields :=
    [Reading.textField "root" fun s l => { l with root := s },
     Reading.textField "generated" fun s l => { l with generated := s },
     Reading.textField "tool" fun s l => { l with tool := s },
     { name := "packages"
       put := fun trail n l => do
        match ← Reading.records fuel packageShape ⟨"", "", ""⟩ trail n with
        | some ps => return { l with packages := ps.map some }
        | none => return l }]

/-- The lockfile that bytes hold; the path is where they come from. -/
def parse (bytes : List UInt8) (path : String) : Except LockfileError Lockfile := do
  match ← (Yaml.firstDocument bytes).mapError (.unreadable path) with
  | none => throw (.empty path)
  | some s =>
    let blank : Lockfile := ⟨path, "", "", "", []⟩
    let read : Reading Empty (Option Lockfile) := do
      Reading.visit []
      Reading.record s.depth (shape s.depth) blank [] s.root
    let l := (← (read.run s.anchored).mapError (.unreadable path)).getD blank
    return normalize { l with generated := Text.trim l.generated }

def load (t : Files.Tree) (here path : String) : Except LockfileError Lockfile := do
  if path.isEmpty then throw .emptyPath
  let full := Files.absolute here path
  match ← (t.look .open here full).mapError .unopened with
  | .directory => throw (.unreadable full .malformed)
  | .file bytes => parse bytes full

/-! ## Writing -/

/-- A package as an item of a list; the commit is left out if there is none. -/
def packageText (p : Locked) : String :=
  let field := Yaml.Printer.field 6
  "  - " ++ field "name" p.name ++ "    " ++ field "source" p.source ++
    (if p.commit.isEmpty then "" else "    " ++ field "commit" p.commit)

def text (l : Lockfile) : String :=
  let field := Yaml.Printer.field 2
  let ps := l.packages.filterMap id
  field "root" l.root ++ field "generated" l.generated ++ field "tool" l.tool ++
    (if ps.isEmpty then "packages: []\n" else "packages:\n" ++ String.join (ps.map packageText))

/-- The lockfile as it is saved under an absolute path: in its written form, and made now if it does
not say when it was made. -/
def stamped (l : Lockfile) (now path : String) : Lockfile :=
  normalize { l with path := path, generated := if l.generated.isEmpty then now else l.generated }

/-- Saves a lockfile, under its own path if none is given. Its fields are brought into their written
form even if the file cannot be written. -/
def save (l : Lockfile) (t : Files.Tree) (here now path : String) :
    Except LockfileError Files.Tree × Lockfile :=
  let path := if path.isEmpty then l.path else path
  if path.isEmpty then (.error .missingPath, l)
  else
    let l := l.stamped now (Files.absolute here path)
    ((t.write here l.path (Text.bytes l.text)).mapError .unwritten, l)

end Lockfile

end Arbor.Package
