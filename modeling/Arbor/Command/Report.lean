import Arbor.Session
import Arbor.Value.Render

/-!
What a command prints.

A command ends with an exit code and two lists of lines. Lines of the trace are kept as events, so
that whoever prints them can say when they happened.
-/

set_option autoImplicit false

namespace Arbor.Command

/-- A line on the error channel. -/
inductive Line where
  | text (line : String)
  | event (e : Event)

def Line.render : Line → String
  | text line => line
  | event e => e.line

/-- The lines printed on both channels, in order. -/
structure Report where
  out : List String
  err : List Line

namespace Report

def empty : Report := ⟨[], []⟩

def append (a b : Report) : Report := ⟨a.out ++ b.out, a.err ++ b.err⟩

instance : Append Report := ⟨append⟩

def print (line : String) : Report := ⟨[line], []⟩

def complain (line : String) : Report := ⟨[], [.text line]⟩

end Report

structure Outcome where
  code : Nat
  report : Report

namespace Outcome

def done (r : Report) : Outcome := ⟨0, r⟩

def failed (r : Report) : Outcome := ⟨1, r⟩

def refused (line : String) : Outcome := failed (.complain line)

end Outcome

/-! ## The standard module -/

/-- What was printed by a program, the latest line first. -/
abbrev Printed := List String

def standardName : String := "std"

/-- The handlers of the standard module: `print` prints its argument as a line. -/
def handlers : Handlers Printed := fun _ vs =>
  match vs with
  | [x] => .get fun printed => .put (x.display :: printed) (.reply .none)
  | _ => .reply .none

def standard : Library :=
  ((Library.empty standardName).add "print" (.native 0 1 true)).exportName "print"

def freshSession (traced : Bool) : Session Printed :=
  (Session.start Registry.empty handlers traced []).register standard

/-! ## Reports on evaluations -/

/-- What an evaluation printed and traced, and the session without it. -/
def takeReport (s : Session Printed) : Report × Session Printed :=
  let (events, s) := s.takeEvents
  (⟨s.world.host.reverse, events.map .event⟩, { s with world := { s.world with host := [] } })

/-- How the end of an evaluation is reported: its value unless it is none, or why it failed. -/
def resultReport : Except Failure Value → Report
  | .ok v => if v.isNone then .empty else .print v.inspect
  | .error f => .complain (Diagnostic.ofFailure (some f)).text

/-- The report on an evaluation, and whether it succeeded. -/
def reportOn (r : Except Failure Value) (s : Session Printed) : Bool × Report × Session Printed :=
  let (printed, s) := takeReport s
  (r.toBool, printed ++ resultReport r, s)

end Arbor.Command
