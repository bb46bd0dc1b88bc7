/-!
Paths of files: elements between slashes.

`clean` gives the shortest path to the same place: empty elements and `.` go, and `..` takes the
element before it away. A path that starts with a slash is absolute and cannot lead above the top.
-/

set_option autoImplicit false

namespace Arbor.Files

def isAbsolute (path : String) : Bool := path.startsWith "/"

/-- The characters between slashes. -/
def splitChars : List Char → List Char → List String
  | [], acc => [String.ofList acc.reverse]
  | '/' :: rest, acc => String.ofList acc.reverse :: splitChars rest []
  | c :: rest, acc => splitChars rest (c :: acc)

/-- The elements of a path as they stand between slashes. -/
def elements (path : String) : List String := splitChars path.toList []

/-- Puts one more element at the end of cleaned elements, which are given last one first. -/
def walk (absolute : Bool) (up : List String) (element : String) : List String :=
  if element.isEmpty || element == "." then up
  else if element == ".." then
    match up with
    | [] => if absolute then [] else [".."]
    | last :: rest => if last == ".." then ".." :: last :: rest else rest
  else element :: up

/-- The elements of the shortest path to the same place. -/
def cleanElements (path : String) : List String :=
  ((elements path).foldl (walk (isAbsolute path)) []).reverse

def clean (path : String) : String :=
  let joined := String.intercalate "/" (cleanElements path)
  if isAbsolute path then "/" ++ joined
  else if joined.isEmpty then "."
  else joined

def join (base path : String) : String :=
  if base.isEmpty then (if path.isEmpty then "" else clean path) else clean (base ++ "/" ++ path)

def directory (path : String) : String :=
  clean (String.ofList (path.toList.reverse.dropWhile (· != '/')).reverse)

/-- The path as seen from the top, for somebody in the directory `here`. -/
def absolute (here path : String) : String :=
  if isAbsolute path then clean path else join here path

end Arbor.Files
