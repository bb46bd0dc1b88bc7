import Arbor.Eval.Host
import Arbor.Value.Narrow
import Arbor.Value.Render

/-!
A host module for watching and steering evaluation: functions that log what they get, count, fail,
lack a handler, and call back into the interpreter.
-/

set_option autoImplicit false

namespace Arbor.Probe

/-- What the functions of the module remember. -/
structure Memory where
  /-- What was logged, the latest first. -/
  log : List String
  count : Int32
  toggled : Bool

def Memory.start : Memory := ⟨[], 0, false⟩

inductive Operation where
  | hit | toggle | count | id | dec | done | equal | text | three | expect | fail | nothing
  | nohandler | again | call
  deriving DecidableEq, Repr

namespace Operation

def all : List Operation :=
  [hit, toggle, count, id, dec, done, equal, text, three, expect, fail, nothing, nohandler, again,
    call]

def name : Operation → String
  | hit => "hit"
  | toggle => "toggle"
  | count => "count"
  | id => "id"
  | dec => "dec"
  | done => "done"
  | equal => "equal"
  | text => "text"
  | three => "three"
  | expect => "expect"
  | fail => "fail"
  | nothing => "nothing"
  | nohandler => "nohandler"
  | again => "again"
  | call => "call"

def arity : Operation → Nat
  | toggle | count | nothing | nohandler | again => 0
  | hit | id | dec | done | text | fail => 1
  | equal | expect => 2
  | three | call => 3

end Operation

def moduleName : String := "host"

def logging (line : String) (next : Action Memory) : Action Memory :=
  .get fun memory => .put { memory with log := line :: memory.log } next

/-- Ends as a call into the interpreter did. -/
def passOn : Except Failure Value → Action Memory
  | .ok v => .reply v
  | .error f => .refuse f

def act : Operation → List Value → Action Memory
  | .hit, [x] => .narrowed x.expectString fun s => logging s (.reply (.string s))
  | .toggle, [] => .get fun memory =>
    .put { memory with toggled := !memory.toggled } (.reply (.bool memory.toggled))
  | .count, [] => .get fun memory =>
    .put { memory with count := memory.count + 1 } (.reply (.integer (memory.count + 1)))
  | .id, [x] => logging x.inspect (.reply x)
  | .dec, [x] => .narrowed x.expectInteger fun n => .reply (.integer (n - 1))
  | .done, [x] => .narrowed x.expectInteger fun n => .reply (.bool (n ≤ 0))
  | .equal, [x, y] => .reply (.bool (x.equal y))
  | .text, [x] => .reply (.string x.display)
  | .three, [x, y, z] => .list [x, y, z] .reply
  | .expect, [kind, x] =>
    match Kind.ofText? kind.display with
    | some k => .narrowed (x.expect k) .reply
    | none => .fail ("unknown kind " ++ kind.display)
  | .fail, [x] => .fail x.display
  | .nothing, [] => .reply .missing
  | .again, [] => .call ⟨moduleName, "again"⟩ [] passOn
  | .call, [module, item, arguments] =>
    .narrowed arguments.expectList fun vs => .call ⟨module.display, item.display⟩ vs passOn
  | _, _ => .reply .missing

def handlers : Handlers Memory := fun id vs =>
  match Operation.all[id]? with
  | some op => act op vs
  | none => .reply .missing

def library : Library :=
  let functions := Operation.all.zipIdx.foldl
    (fun (l : Library) (op, id) => l.add op.name (.native id op.arity (op != .nohandler)))
    (Library.empty moduleName)
  (functions.exportName "hit").exportName "id"

end Arbor.Probe
