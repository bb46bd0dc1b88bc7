import Arbor.Command.Clock
import Arbor.Command.Footprint
import Arbor.Command.Run
import Std.Time.DateTime.Timestamp

/-!
The command line tool.

The files a command may look at are read into a tree, the command is carried out on the tree, and
what it changed is written back. Everything that is decided is decided before anything is printed.
-/

set_option autoImplicit false

namespace Arbor.Main

open Command (Setting Request Line)
open Files (Tree)
open Package (Lockfile Manifest)

/-- What is at the end of a path on disk. -/
def entryAt (path : String) : IO (Option Files.Entry) := do
  try
    return some (.file (← IO.FS.readBinFile path).toList)
  catch e =>
    match e with
    | .inappropriateType .. => return some .directory
    | _ => return none

/-- Reads what lies on the way to a path into a tree. -/
def observe (here path : String) (t : Tree) : IO Tree := do
  let mut t := t
  for step in Tree.wayTo (Files.absolute here path) do
    match t.locate here step with
    | .error _ => return t
    | .ok p =>
      if (t.at? p).isNone then
        match ← entryAt step with
        | some e => t := t.set p e
        | none => return t
  return t

/-- Reads files into a tree, and the files that manifests among them lead to. -/
partial def survey (s : Setting) (lock : Option Lockfile) (seen pending : List String) (t : Tree) :
    IO Tree := do
  match pending with
  | [] => return t
  | path :: rest =>
    if seen.contains path then survey s lock seen rest t
    else
      let t ← observe s.here path t
      let further :=
        match Manifest.load t s.here path with
        | .ok m => Command.pathsOf s lock m
        | .error _ => []
      survey s lock (path :: seen) (further ++ rest) t

/-- The tree of the files a request may look at. -/
def gather (s : Setting) (request : Request) : IO Tree := do
  let start := match request with
    | .run start | .inspect start => start
    | _ => ""
  let paths := Command.startingPaths s request
  let t ← survey s none [] paths (← observe s.here s.here Tree.empty)
  let lock := do
    let m ← (Command.manifestFrom t s start).toOption
    (Lockfile.load t s.here (Command.lockfilePath m)).toOption
  survey s lock [] paths t

/-- Writes what has changed in a tree back to disk. -/
def writeBack (before after : Tree) : IO Unit :=
  (Tree.changes before after).forM fun (p, e) =>
    match e with
    | .directory => IO.FS.createDirAll p.path
    | .file contents => IO.FS.writeBinFile p.path ⟨contents.toArray⟩

partial def drain (channel : IO.FS.Stream) (done : ByteArray) : IO ByteArray := do
  let more ← channel.read 65536
  if more.isEmpty then return done else drain channel (done ++ more)

/-- More steps than any evaluation takes. -/
def fuel : Nat := 1000000000000000000

def runTool (arguments : List String) : IO UInt32 := do
  let (_, request) := Command.parse arguments
  let input ← match request with
    | .eval "-" | .repl => drain (← IO.getStdin) .empty
    | _ => pure .empty
  let now := Command.clockText (← Std.Time.Timestamp.now).toSecondsSinceUnixEpoch.val.toNat
  let setting : Setting := {
    here := toString (← IO.currentDir)
    userHome := (← IO.getEnv "HOME").getD ""
    toolHome := (← IO.getEnv "LORGN_HOME").getD ""
    input := input.toList
    now := now
    fuel := fuel }
  let files ← gather setting request
  match Command.run files setting arguments with
  | none => return 2
  | some (outcome, after) =>
    writeBack files after
    outcome.report.out.forM fun line => IO.println line
    outcome.report.err.forM fun line =>
      match line with
      | .text s => IO.eprintln s
      | .event e => IO.eprintln ("time=" ++ now ++ " " ++ e.line)
    return outcome.code.toUInt32

end Arbor.Main

/-- The entry point of the tool. -/
def main (arguments : List String) : IO UInt32 := Arbor.Main.runTool arguments
