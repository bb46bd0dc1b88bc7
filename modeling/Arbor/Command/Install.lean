import Arbor.Command.Project
import Arbor.Command.Report
import Arbor.Command.Request

/-!
Installing dependencies: they are resolved with the lockfile as it is, and the lockfile is written
anew if it was missing or if any of them came out otherwise.
-/

set_option autoImplicit false

namespace Arbor.Command

open Package (Manifest Lockfile Locked Program Resolved)

def entryOf (d : Resolved) : Locked := ⟨d.name, d.source, d.commit⟩

/-- Puts dependencies into a lockfile one after the other, with a line for each one that changes
it. -/
def lockAll : List Resolved → Lockfile → List String × Lockfile
  | [], l => ([], l)
  | d :: rest, l =>
    let after := l.put (entryOf d)
    let (lines, last) := lockAll rest after
    (if after = l then lines else ("Locked " ++ d.name ++ " " ++ d.source) :: lines, last)

/-- The lockfile an installation starts from, and whether it is new. -/
def startingLock (t : Files.Tree) (s : Setting) (m : Manifest) :
    Except String (Lockfile × Bool) :=
  let path := lockfilePath m
  let ready := fun (l : Lockfile) => { l with path := path, tool := tool }
  match Lockfile.load t s.here path with
  | .ok l =>
    if l.root = m.name then .ok (ready l, false) else .error (rootMismatch l.root m.name)
  | .error e =>
    if e.isMissing then .ok (ready (Lockfile.start m.name tool s.now), true)
    else .error ("failed to read lockfile: " ++ e.text)

/-- What is printed before anything is resolved. -/
def preamble (m : Manifest) (cache : String) : Report :=
  ⟨["Manifest: " ++ m.path,
    "Root package: " ++ m.name,
    "Dependencies: " ++ toString m.dependencies.length,
    "Cache directory: " ++ cache], []⟩

def writeLock (t : Files.Tree) (s : Setting) (m : Manifest) (isNew : Bool) (l : Lockfile)
    (p : Program) : Outcome × Files.Tree :=
  let (lines, after) := lockAll p.dependencies l
  let report : Report := ⟨lines, []⟩
  let path := lockfilePath m
  if isNew || !lines.isEmpty then
    match after.save t s.here s.now path with
    | (.ok t, _) => (.done (report ++ .print ("Wrote " ++ path)), t)
    | (.error e, _) => (.failed (report ++ .complain ("failed to write lockfile: " ++ e.text)), t)
  else (.done (report ++ .print "Lockfile up to date"), t)

/-- Resolves the dependencies of a manifest and writes them down. -/
def installFor (t : Files.Tree) (s : Setting) (m : Manifest) (cache : String) :
    Outcome × Files.Tree :=
  match startingLock t s m with
  | .error line => (.refused line, t)
  | .ok (l, isNew) =>
    match Program.load ⟨s.here, some cache, some l, false⟩ t (some m) s.remote s.fuel with
    | (.error e, t) => (.refused ("failed to resolve dependencies: " ++ e.text), t)
    | (.ok p, t) => writeLock t s m isNew l p

/-- Installs the dependencies of the project around the working directory. -/
def install (t : Files.Tree) (s : Setting) : Outcome × Files.Tree :=
  match manifestFrom t s "" with
  | .error e => (.refused ("unable to locate " ++ Manifest.fileName ++ ": " ++ e.text), t)
  | .ok m =>
    match cacheDirectory s with
    | .error e => (.refused ("failed to resolve LORGN_HOME: " ++ e.text), t)
    | .ok cache =>
      let (outcome, t) := installFor t s m cache
      ({ outcome with report := preamble m cache ++ outcome.report }, t)

end Arbor.Command
