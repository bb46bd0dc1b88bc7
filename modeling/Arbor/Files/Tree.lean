import Arbor.Files.Path

/-!
A tree of files, as an operating system shows it.

* A `Place` names a node of the tree by its elements, the last one first, so that the place above it
  is its tail. The top is always a directory.
* `Tree.locate` follows a path element by element: everything before the last element has to be a
  directory. `Tree.look` tells what is at the end of a path.
* `Tree.write` puts a file down, `Tree.makeDirectories` a directory with all directories above it,
  `Tree.makeTemporary` a directory of a new name, `Tree.removeAll` takes away what is at a path, and
  `Tree.rename` moves it.
-/

set_option autoImplicit false

namespace Arbor.Files

inductive Entry where
  | directory
  | file (contents : List UInt8)
  deriving DecidableEq, Repr

inductive Reason where
  | missing | present | notDirectory | isDirectory | invalid | tooLong
  deriving DecidableEq, Repr

def Reason.text : Reason → String
  | missing => "no such file or directory"
  | present => "file exists"
  | notDirectory => "not a directory"
  | isDirectory => "is a directory"
  | invalid => "invalid argument"
  | tooLong => "file name too long"

inductive Operation where
  | open | read | stat | mkdir | mkdirTemp | unlink | rename
  deriving DecidableEq, Repr

def Operation.text : Operation → String
  | .open => "open"
  | .read => "read"
  | .stat => "stat"
  | .mkdir => "mkdir"
  | .mkdirTemp => "mkdirtemp"
  | .unlink => "unlinkat"
  | .rename => "rename"

structure Error where
  operation : Operation
  path : String
  reason : Reason
  deriving DecidableEq, Repr

def Error.text (e : Error) : String := e.operation.text ++ " " ++ e.path ++ ": " ++ e.reason.text

/-- The elements of a place, the last one first. -/
abbrev Place := List String

def Place.path (p : Place) : String := "/" ++ String.intercalate "/" p.reverse

/-- The places with something at them, the top apart. -/
structure Tree where
  entries : List (Place × Entry)

namespace Tree

def empty : Tree := ⟨[]⟩

def at? (t : Tree) : Place → Option Entry
  | [] => some .directory
  | p => t.entries.lookup p

def setEntry : List (Place × Entry) → Place → Entry → List (Place × Entry)
  | [], p, e => [(p, e)]
  | (q, old) :: rest, p, e => if q == p then (p, e) :: rest else (q, old) :: setEntry rest p e

def set (t : Tree) (p : Place) (e : Entry) : Tree := ⟨setEntry t.entries p e⟩

/-! ## Following paths -/

/-- The length in bytes above which an element of a path is refused. -/
def longestElement : Nat := 255

/-- The length in bytes from which on a path is refused. -/
def pathLimit : Nat := 4096

def follow (t : Tree) : Place → List String → Except Reason Place
  | p, [] => .ok p
  | p, e :: rest =>
    match t.at? p with
    | none => .error .missing
    | some (.file _) => .error .notDirectory
    | some .directory =>
      if e == "." then follow t p rest
      else if e == ".." then follow t p.tail rest
      else if e.utf8ByteSize > longestElement then .error .tooLong
      else follow t (e :: p) rest

/-- The place a path leads to from the directory `here`; there may be nothing at it. -/
def locate (t : Tree) (here path : String) : Except Reason Place :=
  if path.isEmpty then .error .missing
  else if path.toList.any (·.toNat == 0) then .error .invalid
  else if path.utf8ByteSize ≥ pathLimit then .error .tooLong
  else do
    let full := if isAbsolute path then path else here ++ "/" ++ path
    let p ← t.follow [] ((elements full).filter (!·.isEmpty))
    match t.at? p with
    | some (.file _) => if path.endsWith "/" then .error .notDirectory else .ok p
    | _ => .ok p

def look (t : Tree) (operation : Operation) (here path : String) : Except Error Entry :=
  match t.locate here path with
  | .error reason => .error ⟨operation, path, reason⟩
  | .ok p =>
    match t.at? p with
    | some e => .ok e
    | none => .error ⟨operation, path, .missing⟩

def read (t : Tree) (here path : String) : Except Error (List UInt8) :=
  match t.look .open here path with
  | .error e => .error e
  | .ok .directory => .error ⟨.read, path, .isDirectory⟩
  | .ok (.file contents) => .ok contents

/-! ## Changing the tree -/

/-- Puts a file down, in place of a file that was there. -/
def write (t : Tree) (here path : String) (contents : List UInt8) : Except Error Tree :=
  match t.locate here path with
  | .error reason => .error ⟨.open, path, reason⟩
  | .ok p =>
    match t.at? p with
    | some .directory => .error ⟨.open, path, .isDirectory⟩
    | _ => .ok (t.set p (.file contents))

/-- The paths to the directories on the way to a clean path, the outermost first. -/
def wayTo (path : String) : List String :=
  let start := if isAbsolute path then "/" else ""
  let step := fun (done : List String) (e : String) =>
    match done with
    | [] => [start ++ e]
    | last :: _ => (last ++ "/" ++ e) :: done
  ((cleanElements path).foldl step []).reverse

def makeEach (here : String) : List String → Tree → Except Error Unit × Tree
  | [], t => (.ok (), t)
  | path :: rest, t =>
    match t.locate here path with
    | .error reason => (.error ⟨.mkdir, path, reason⟩, t)
    | .ok p =>
      match t.at? p with
      | some .directory => makeEach here rest t
      | some (.file _) => (.error ⟨.mkdir, path, .notDirectory⟩, t)
      | none => makeEach here rest (t.set p .directory)

/-- Makes a directory and all directories above it, as far as they are missing. -/
def makeDirectories (t : Tree) (here path : String) : Except Error Unit × Tree :=
  makeEach here (wayTo path) t

/-- Makes one directory, where nothing is yet. -/
def makeDirectory (t : Tree) (here path : String) : Except Error Unit × Tree :=
  match t.locate here path with
  | .error reason => (.error ⟨.mkdir, path, reason⟩, t)
  | .ok p =>
    match t.at? p with
    | some _ => (.error ⟨.mkdir, path, .present⟩, t)
    | none => (.ok (), t.set p .directory)

/-- Makes a directory of a new name: a start with a random number after it, and with another one as
long as there is something of that name. Gives up after so many tries. -/
def makeTemporary (t : Tree) (here start : String) (random : Nat → UInt32) :
    Nat → Except Error String × Tree
  | 0 => (.error ⟨.mkdirTemp, start ++ "*", .present⟩, t)
  | tries + 1 =>
    let path := start ++ toString (random tries).toNat
    match t.makeDirectory here path with
    | (.ok (), t) => (.ok path, t)
    | (.error e, t) =>
      if e.reason = .present then makeTemporary t here start random tries else (.error e, t)

/-- The tree without a place and all places below it. -/
def without (t : Tree) (p : Place) : Tree :=
  ⟨t.entries.filter fun (q, _) => !p.isSuffixOf q⟩

/-- Takes away what is at the end of a path, if anything is there, with all that is below. -/
def removeAll (t : Tree) (here path : String) : Except Error Unit × Tree :=
  match t.locate here path with
  | .error .missing => (.ok (), t)
  | .error reason => (.error ⟨.unlink, path, reason⟩, t)
  | .ok p => (.ok (), t.without p)

/-- Where a place is found after what is at `p` was moved to `q`. -/
def redirect (p q r : Place) : Place :=
  if p.isSuffixOf r then r.take (r.length - p.length) ++ q else r

/-- The tree with what is at a place and below it at another place instead. -/
def moved (t : Tree) (p q : Place) : Tree :=
  ⟨(t.without q).entries.map fun x => (redirect p q x.1, x.2)⟩

/-- Moves what is at the end of a path to another one, where no directory may be yet. -/
def rename (t : Tree) (here old new : String) : Except Error Unit × Tree :=
  let failed := fun reason => (Except.error ⟨.rename, old ++ " " ++ new, reason⟩, t)
  match t.locate here old, t.locate here new with
  | .error reason, _ => failed reason
  | .ok _, .error reason => failed reason
  | .ok p, .ok q =>
    match t.at? p, t.at? q with
    | none, _ => failed .missing
    | some _, some .directory => failed .present
    | some .directory, some (.file _) => failed .notDirectory
    | some _, _ =>
      if p = q then (.ok (), t)
      else if p.isSuffixOf q then failed .invalid
      else (.ok (), t.moved p q)

/-- What is in the second tree and not, or otherwise, in the first. -/
def changes (before after : Tree) : List (Place × Entry) :=
  after.entries.filter fun (p, e) => before.at? p != some e

end Tree

end Arbor.Files
