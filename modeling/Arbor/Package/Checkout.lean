import Arbor.Files.Tree
import Arbor.Package.Manifest.Basic

/-!
Checkouts of repositories, which are kept in a cache by name and commit.

A revision that is a full hash is looked up in the cache. Anything else has to be cloned, into a
temporary directory beside the other checkouts of the package. The revision is looked up in the clone,
and if its commit is not kept yet, the files of the commit are put into the directory and that is
moved to where it is kept. Otherwise the temporary directory is taken away. What cloning does is up to
a `Remote`.
-/

set_option autoImplicit false

namespace Arbor.Package

structure Checkout where
  directory : String
  commit : String
  source : String
  deriving DecidableEq, Repr

inductive CheckoutError where
  | noSource (name : String)
  | noCache
  | files (error : Files.Error)
  | uncloned (url message : String)
  | unresolved (revision message : String)
  | noWorktree (message : String)
  | notCheckedOut (revision message : String)

def CheckoutError.text : CheckoutError → String
  | noSource name => "git: dependency " ++ Text.quote name ++ " has no git source"
  | noCache => "git: cache directory not configured"
  | files e => e.text
  | uncloned url message => "git clone " ++ url ++ ": " ++ message
  | unresolved revision message => "resolve revision " ++ revision ++ ": " ++ message
  | noWorktree message => message
  | notCheckedOut revision message => "git checkout " ++ revision ++ ": " ++ message

/-- The revision a dependency asks for by itself. -/
def Dependency.revision (d : Dependency) : String :=
  if !d.rev.isEmpty then d.rev
  else if !d.tag.isEmpty then "refs/tags/" ++ d.tag
  else if !d.branch.isEmpty then "refs/remotes/origin/" ++ d.branch
  else "HEAD"

/-- The revision a dependency is taken at: a commit it is pinned to counts unless it gives one. -/
def Dependency.revisionAt (d : Dependency) (pinned : String) : String :=
  if d.rev.isEmpty && !pinned.isEmpty then pinned else d.revision

/-- Whether a revision is a full hash: forty hexadecimal digits. -/
def isHash (s : String) : Bool :=
  let cs := s.toList
  cs.length == 40 && cs.all fun c =>
    c.isDigit || ('a' ≤ c && c ≤ 'f') || ('A' ≤ c && c ≤ 'F')

/-- The hash of a commit as it is written. -/
structure Hash where
  text : String
  full : isHash text = true
  lower : text.toList.all (!·.isUpper) = true

/-- A repository that was cloned into a directory. -/
structure Repository where
  /-- The commit of a revision. -/
  resolve : String → Except String Hash
  /-- What puts the files of a commit into the directory, if the repository has any. -/
  worktree : Except String (Hash → Files.Tree → Except String Unit × Files.Tree)

/-- What fetching meets outside: random numbers, and cloning, which may fail with a message and leave
files all the same. -/
structure Remote where
  random : Nat → UInt32
  /-- Cloning a repository, for somebody in the directory `here`, into a directory. -/
  clone : (here url directory : String) → Files.Tree → Except String Repository × Files.Tree

def Remote.unreachable : Remote where
  random := Nat.toUInt32
  clone := fun _ _ _ t => (.error "repository not found", t)

namespace Checkout

def sourceOf (url commit : String) : String := "git+" ++ Text.trim url ++ "@" ++ commit

/-- The directory of a package in the cache. -/
def base (cache name : String) : String :=
  Files.join (Files.join cache "git") (packageName name)

/-- How many names are tried for a temporary directory. -/
def tries : Nat := 10000

/-- Puts the files of a commit into the directory of its repository, and moves that to where the
commit is kept. -/
def keep (t : Files.Tree) (here directory revision : String) (repository : Repository) (hash : Hash)
    (checkout : Checkout) : Except CheckoutError Checkout × Files.Tree :=
  let drop := fun (t : Files.Tree) => (t.removeAll here directory).2
  match repository.worktree with
  | .error message => (.error (.noWorktree message), drop t)
  | .ok checkOut =>
    match checkOut hash t with
    | (.error message, t) => (.error (.notCheckedOut revision message), drop t)
    | (.ok (), t) =>
      match t.rename here directory checkout.directory with
      | (.ok (), t) => (.ok checkout, t)
      | (.error e, t) =>
        -- Somebody else may have put it there in the meantime.
        (if e.reason = .present then .ok checkout else .error (.files e), drop t)

/-- The checkout of a revision of a repository that was cloned into a temporary directory. -/
def settle (t : Files.Tree) (here base directory url revision : String) (repository : Repository) :
    Except CheckoutError Checkout × Files.Tree :=
  let drop := fun (t : Files.Tree) => (t.removeAll here directory).2
  match repository.resolve revision with
  | .error message => (.error (.unresolved revision message), drop t)
  | .ok hash =>
    let checkout : Checkout := ⟨Files.join base hash.text, hash.text, sourceOf url hash.text⟩
    if (t.look .stat here checkout.directory).toBool then (.ok checkout, drop t)
    else keep t here directory revision repository hash checkout

/-- The checkout of a revision of a repository, which is cloned into that directory on the way. -/
def cloneInto (r : Remote) (t : Files.Tree) (here base directory url revision : String) :
    Except CheckoutError Checkout × Files.Tree :=
  match r.clone here url directory t with
  | (.error message, t) => (.error (.uncloned url message), (t.removeAll here directory).2)
  | (.ok repository, t) => settle t here base directory url revision repository

/-- Clones a repository into a temporary directory below a base, for the checkout of a revision. -/
def clone (r : Remote) (t : Files.Tree) (here base url revision : String) :
    Except CheckoutError Checkout × Files.Tree :=
  match t.makeTemporary here (base ++ "/git-fetch-") r.random tries with
  | (.error e, t) => (.error (.files e), t)
  | (.ok directory, t) =>
    -- Only the name is wanted: cloning makes the directory itself.
    match t.removeAll here directory with
    | (.error e, t) => (.error (.files e), t)
    | (.ok (), t) => cloneInto r t here base directory url revision

/-- The checkout of a dependency, and the files with the directory of the package in the cache. -/
def fetchFrom (r : Remote) (t : Files.Tree) (here cache name : String) (d : Option Dependency)
    (pinned : String) : Except CheckoutError Checkout × Files.Tree :=
  match d.filter (·.isGit) with
  | none => (.error (.noSource name), t)
  | some d =>
    if cache.isEmpty then (.error .noCache, t)
    else
      let base := base cache name
      match t.makeDirectories here base with
      | (.error e, t) => (.error (.files e), t)
      | (.ok (), t) =>
        let revision := d.revisionAt pinned
        let directory := Files.join base revision
        if isHash revision && (t.look .stat here directory).toBool then
          (.ok ⟨directory, revision, sourceOf d.git revision⟩, t)
        else clone r t here base d.git revision

/-- The checkout of a dependency where no repository is reached. -/
def fetch (t : Files.Tree) (here cache name : String) (d : Option Dependency) (pinned : String) :
    Except CheckoutError Checkout × Files.Tree :=
  fetchFrom .unreachable t here cache name d pinned

end Checkout

end Arbor.Package
