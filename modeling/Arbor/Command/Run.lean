import Arbor.Command.Inspect
import Arbor.Command.Install
import Arbor.Command.Repl

/-!
Carrying a command line out on a tree of files.

`run` gives the exit code and what is printed, and the files afterwards. There is no answer if an
evaluation takes more steps than the setting allows.
-/

set_option autoImplicit false

namespace Arbor.Command

open Package (Program)

/-- A session with the modules of a program. -/
def sessionOf (traced : Bool) (p : Option Program) : Session Printed :=
  ((p.map (·.modules)).getD []).foldl (fun s m => s.load m.name (some m.tree)) (freshSession traced)

def loadFailure (e : ProjectError) : Outcome := .refused ("failed to load program: " ++ e.text)

def outcomeOf (r : Option (Except Failure Value × Session Printed)) : Option Outcome := do
  let (r, s) ← r
  let (good, report, _) := reportOn r s
  return if good then .done report else .failed report

def runProgram (s : Setting) (traced : Bool) (p : Program) : Option Outcome :=
  match p.manifest.entry with
  | none => some (.refused ("manifest " ++ p.manifest.path ++ " does not declare an entry"))
  | some e => outcomeOf ((sessionOf traced (some p)).call s.fuel ⟨e.module, e.function⟩ [])

/-- The expression of a document: piped in if the document is a dash. -/
def readDocument (t : Files.Tree) (s : Setting) (document : String) : Except String Expr := do
  let (format, bytes) ←
    if document = "-" then pure (Format.json, s.input)
    else
      let unread := fun (reason : String) => "failed to read expression: " ++ reason
      let format ← (Format.ofPath document).mapError fun e => unread e.text
      let bytes ← (t.read s.here document).mapError fun e => unread e.text
      pure (format, bytes)
  (format.readExpr bytes).mapError (·.text)

def carryOut (t : Files.Tree) (s : Setting) (traced : Bool) :
    Request → Option (Outcome × Files.Tree)
  | .nothing => some (.failed ⟨[], usage.map .text⟩, t)
  | .help => some (.done ⟨[], usage.map .text⟩, t)
  | .version => some (.done (.print tool), t)
  | .refused complaint =>
    let more := match complaint with
      | .unknownCommand _ => usage
      | _ => []
    some (.failed ⟨[], (complaint.text :: more).map .text⟩, t)
  | .run start =>
    match loadProgram t s start with
    | (.error e, t) => some (loadFailure e, t)
    | (.ok p, t) => (runProgram s traced p).map (·, t)
  | .inspect start =>
    match loadProgram t s start with
    | (.error e, t) => some (loadFailure e, t)
    | (.ok p, t) => some (.done ⟨overview p, []⟩, t)
  | .install => some (install t s)
  | .eval document =>
    match readDocument t s document with
    | .error line => some (.refused line, t)
    | .ok e =>
      match optionalProgram t s with
      | (.error e, t) => some (loadFailure e, t)
      | (.ok p, t) => (outcomeOf ((sessionOf traced p).evaluate s.fuel e)).map (·, t)
  | .repl =>
    match optionalProgram t s with
    | (.error e, t) => some (loadFailure e, t)
    | (.ok p, t) => (runLoop (sessionOf traced p) s.fuel s.input).map (·, t)

/-- Carries a command line out. -/
def run (t : Files.Tree) (s : Setting) (arguments : List String) :
    Option (Outcome × Files.Tree) :=
  let (traced, request) := parse arguments
  carryOut t s traced request

end Arbor.Command
