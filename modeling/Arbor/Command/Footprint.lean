import Arbor.Command.Project
import Arbor.Command.Request

/-!
The files a command may look at, so that no others need to be known.

A request starts from a few paths. Each manifest among them leads to further ones: its lockfile, its
modules and the manifests of its dependencies.
-/

set_option autoImplicit false

namespace Arbor.Command

open Package (Manifest Lockfile Dependency Checkout)

/-- The manifests that may be found from a directory. -/
def manifestsAbove : Files.Place → List String
  | [] => [Files.Place.path [Manifest.fileName]]
  | e :: up => Files.Place.path (Manifest.fileName :: e :: up) :: manifestsAbove up

def searchPaths (s : Setting) (start : String) : List String :=
  let full := Files.absolute s.here (if start.isEmpty then s.here else start)
  full :: manifestsAbove (Files.cleanElements full).reverse

def startingPaths (s : Setting) : Request → List String
  | .run start | .inspect start => searchPaths s start
  | .install | .repl => searchPaths s ""
  | .eval document => Files.absolute s.here document :: searchPaths s ""
  | _ => []

def dependencyManifest (s : Setting) (lock : Option Lockfile) (m : Manifest) (name : String)
    (d : Dependency) : String :=
  let directory :=
    if d.isGit then
      let cache := (cacheDirectory s).toOption.getD ""
      let pinned := ((lock.bind (·.find? name)).map (·.commit)).getD ""
      Files.join (Checkout.base cache name) (d.revisionAt pinned)
    else m.resolve d.path
  Files.join directory Manifest.fileName

/-- The paths a manifest leads to. -/
def pathsOf (s : Setting) (lock : Option Lockfile) (m : Manifest) : List String :=
  lockfilePath m :: m.modules.map (fun p => m.resolve p.2) ++
    m.dependencies.map fun p => dependencyManifest s lock m p.1 p.2

end Arbor.Command
