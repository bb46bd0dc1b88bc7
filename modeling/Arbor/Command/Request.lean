import Arbor.Text.Quoted

/-!
Command lines: what is asked for, and what is wrong with a command line that asks for nothing.
-/

set_option autoImplicit false

namespace Arbor.Command

/-- What is wrong with a command line. -/
inductive Complaint where
  | unknownCommand (name : String)
  | unexpected (arguments : List String)
  | evalArguments
  | depsMissing
  | depsUnknown (name : String)
  | installArguments (arguments : List String)
  | replArguments (arguments : List String)
  deriving DecidableEq, Repr

def Complaint.text : Complaint → String
  | unknownCommand name => "unknown command " ++ Text.quote name
  | unexpected arguments => "unexpected arguments: " ++ String.intercalate " " arguments
  | evalArguments => "lorgn eval requires exactly one expression document (use - for stdin)"
  | depsMissing => "lorgn deps requires a subcommand (install)"
  | depsUnknown name => "unknown deps subcommand " ++ Text.quote name
  | installArguments arguments =>
    "lorgn deps install does not take arguments (received " ++ String.intercalate " " arguments ++
      ")"
  | replArguments arguments =>
    "lorgn repl does not take arguments (received " ++ String.intercalate " " arguments ++ ")"

/-- What a command line asks for. An empty start is the working directory. -/
inductive Request where
  | nothing
  | help
  | version
  | run (start : String)
  | eval (document : String)
  | inspect (start : String)
  | install
  | repl
  | refused (complaint : Complaint)
  deriving DecidableEq, Repr

def tool : String := "lorgn-cli 0.1.0-dev"

def usage : List String :=
  ["Usage:",
   "  lorgn run [lorgn.yml|dir]",
   "  lorgn eval <expr.json|expr.yml|->",
   "  lorgn inspect [lorgn.yml|dir]",
   "  lorgn deps install",
   "  lorgn repl",
   "Flags:",
   "  --trace   log function calls to stderr"]

namespace Request

/-- A request with at most one argument. -/
def optional (request : String → Request) : List String → Request
  | [] => request ""
  | [start] => request start
  | _ :: rest => .refused (.unexpected rest)

/-- The request of a command line without flags. -/
def parse : List String → Request
  | [] => .nothing
  | "--help" :: _ | "-h" :: _ | "help" :: _ => .help
  | "--version" :: _ | "-V" :: _ | "version" :: _ => .version
  | "run" :: rest => optional .run rest
  | "eval" :: rest =>
    match rest with
    | [document] => .eval document
    | _ => .refused .evalArguments
  | "inspect" :: rest => optional .inspect rest
  | "deps" :: rest =>
    match rest with
    | [] => .refused .depsMissing
    | "install" :: [] => .install
    | "install" :: rest => .refused (.installArguments rest)
    | name :: _ => .refused (.depsUnknown name)
  | "repl" :: [] => .repl
  | "repl" :: rest => .refused (.replArguments rest)
  | name :: _ => .refused (.unknownCommand name)

end Request

/-- The flag that asks for a trace; it may stand anywhere. -/
def traceFlag : String := "--trace"

/-- Whether a trace is asked for, and the request. -/
def parse (arguments : List String) : Bool × Request :=
  (arguments.contains traceFlag, Request.parse (arguments.filter (· != traceFlag)))

end Arbor.Command
