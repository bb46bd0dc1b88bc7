import Arbor.Command.Report
import Arbor.Package.Program

/-!
The overview of a program: its package, entry point, dependencies, and the functions of its modules.
-/

set_option autoImplicit false

namespace Arbor.Command

open Package (Program SourceModule)

def functionLine (l : Library) (name : String) (f : Function) : String :=
  let head :=
    match f with
    | .imported target => "import " ++ name ++ " from " ++ target.text
    | .defined parameters _ => "fn " ++ name ++ "(" ++ String.intercalate ", " parameters ++ ")"
    | .native .. => "fn " ++ name ++ "()"
  "  " ++ head ++ (if l.isExported name then " export" else "")

def moduleLines (m : SourceModule) : List String :=
  let l := Library.ofModule m.name (some m.tree)
  ("module " ++ m.name ++ " (" ++ m.package ++ ", " ++ m.file ++ ")") ::
    l.functions.map fun (name, f) => functionLine l name f

/-- A program in lines. -/
def overview (p : Program) : List String :=
  ["package " ++ p.manifest.name ++ " " ++ p.manifest.version] ++
  (p.manifest.entry.map fun e => "entry " ++ e.text).toList ++
  p.dependencies.map (fun d => "dependency " ++ d.name ++ " " ++ d.source) ++
  p.modules.flatMap moduleLines

end Arbor.Command
