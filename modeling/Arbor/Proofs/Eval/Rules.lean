import Arbor.Eval.Basic

/-!
The meaning of trees as rules, without fuel.

* `Evals m e s r t`: evaluating `e` in the state `s` ends in the state `t` with the outcome `r`. An
  outcome is a plain value, a return, a break or a failure.
* `InOrder m es s r t`: the expressions `es` are evaluated one after the other, and the first that
  does not end plainly ends them all. Blocks, elements, entries and arguments are evaluated this way.
* `Calls m path vs s r t`: the function at a path is called with values.
* `Applies m name f vs s r t`: a function that is in use runs.
* `Performs m a w r w'`: a handler is followed to its end; it sees the world only.

A state that a rule does not mention is one that the evaluation does not reach.
-/

set_option autoImplicit false

namespace Arbor

/-- The four ways to end: a plain value, a return, a break, a failure. -/
abbrev Outcome := Except Stop Value

/-- The outcome of a failure that no call has recorded. -/
def Stop.raise {α : Type} (c : Cause) : Except Stop α := .error (.fail (.ofCause c))

/-- The name an entry binds, if it is not blank. -/
def Entry.key? : Entry → Option String
  | .blank => none
  | .field key _ => some key

/-- The expression of an entry, if it is not blank. -/
def Entry.value? : Entry → Option Expr
  | .blank => none
  | .field _ e => some e

/-- The state in which the next free handle is given away. -/
def State.skipHandle {σ : Type} (s : State σ) : State σ := { s with world := s.world.skipHandle }

namespace Machine

variable {σ : Type}

/-! ## The states around a call -/

section Around
variable (m : Machine σ) (e : Unit → Event) (w : World σ) (f : Function) (s : State σ)

@[simp] theorem note_host : (m.note e w).host = w.host := by
  unfold note
  split <;> rfl

@[simp] theorem note_held : (m.note e w).held = w.held := by
  unfold note
  split <;> rfl

@[simp] theorem note_fresh : (m.note e w).fresh = w.fresh := by
  unfold note
  split <;> rfl

@[simp] theorem enter_scopes (path : Path) (k : Nat) (held : Held) :
    (m.enter path f k held s).scopes = s.scopes := rfl

@[simp] theorem enter_calls (path : Path) (k : Nat) (held : Held) :
    (m.enter path f k held s).calls = path :: s.calls := rfl

@[simp] theorem enter_held (path : Path) (k : Nat) (held : Held) :
    (m.enter path f k held s).world.held = held := note_held ..

@[simp] theorem enter_host (path : Path) (k : Nat) (held : Held) :
    (m.enter path f k held s).world.host = s.world.host := note_host ..

@[simp] theorem leave_scopes : (m.leave f e s).scopes = s.scopes := rfl

@[simp] theorem leave_calls : (m.leave f e s).calls = s.calls.tail := rfl

@[simp] theorem leave_held : (m.leave f e s).world.held = f.release s.world.held :=
  congrArg f.release (note_held ..)

@[simp] theorem leave_host : (m.leave f e s).world.host = s.world.host := note_host ..

end Around

/-! ## The rules -/

mutual

inductive Evals (m : Machine σ) : Expr → State σ → Outcome → State σ → Prop where
  | absent {s : State σ} : Evals m .absent s (.ok .none) s
  | emptyBlock {s : State σ} : Evals m (.empty .block) s (.ok .none) s
  | empty {type : NodeType} {s : State σ} : type ≠ .block →
      Evals m (.empty type) s (Stop.raise (.unsupported (.evaluateEmpty type))) s
  | string {x : String} {s : State σ} : Evals m (.string x) s (.ok (.string x)) s
  | integer {x : Int32} {s : State σ} : Evals m (.integer x) s (.ok (.integer x)) s
  | float {x : Single} {s : State σ} : Evals m (.float x) s (.ok (.float x)) s
  | bool {x : Bool} {s : State σ} : Evals m (.bool x) s (.ok (.bool x)) s
  | var {name : String} {s : State σ} {v : Value} : s.scopes.lookup? name = some v →
      Evals m (.var name) s (.ok v) s
  | unbound {name : String} {s : State σ} : s.scopes.lookup? name = none →
      Evals m (.var name) s (Stop.raise (.unboundVariable name)) s
  | assign {name : String} {e : Expr} {s t : State σ} {v : Value} {scopes : Scopes} :
      Evals m e s (.ok v) t → t.scopes.insert? name v = some scopes →
      Evals m (.assign name e) s (.ok v) { t with scopes := scopes }
  | assignNowhere {name : String} {e : Expr} {s t : State σ} {v : Value} :
      Evals m e s (.ok v) t → t.scopes.insert? name v = none →
      Evals m (.assign name e) s (Stop.raise (.controlFlow (.assigned name))) t
  | assignStop {name : String} {e : Expr} {s t : State σ} {x : Stop} :
      Evals m e s (.error x) t → Evals m (.assign name e) s (.error x) t
  | block {es : List Expr} {s t : State σ} {vs : List Value} :
      InOrder m es s (.ok vs) t → Evals m (.block es) s (.ok (vs.getLastD .none)) t
  | blockStop {es : List Expr} {s t : State σ} {x : Stop} :
      InOrder m es s (.error x) t → Evals m (.block es) s (.error x) t
  | list {es : List Expr} {s t : State σ} {vs : List Value} :
      InOrder m es s (.ok vs) t →
      Evals m (.list es) s (.ok (.list t.world.fresh vs)) t.skipHandle
  | listStop {es : List Expr} {s t : State σ} {x : Stop} :
      InOrder m es s (.error x) t → Evals m (.list es) s (.error x) t
  | map {es : List Entry} {s t : State σ} {vs : List Value} :
      InOrder m (es.filterMap Entry.value?) s (.ok vs) t →
      Evals m (.map es) s
        (.ok (.object t.world.fresh (Table.ofPairs ((es.filterMap Entry.key?).zip vs)))) t.skipHandle
  | mapStop {es : List Entry} {s t : State σ} {x : Stop} :
      InOrder m (es.filterMap Entry.value?) s (.error x) t → Evals m (.map es) s (.error x) t
  | call {path : Path} {es : List Expr} {s t u : State σ} {vs : List Value} {r : Outcome} :
      InOrder m es s (.ok vs) t → Calls m path vs t r u → Evals m (.call path es) s r u
  | callStop {path : Path} {es : List Expr} {s t : State σ} {x : Stop} :
      InOrder m es s (.error x) t → Evals m (.call path es) s (.error x) t
  | condTrue {test a b : Expr} {s t u : State σ} {r : Outcome} :
      Evals m test s (.ok (.bool true)) t → Evals m a t r u → Evals m (.cond test a b) s r u
  | condFalse {test a b : Expr} {s t u : State σ} {r : Outcome} :
      Evals m test s (.ok (.bool false)) t → Evals m b t r u → Evals m (.cond test a b) s r u
  | condOther {test a b : Expr} {s t : State σ} {v : Value} :
      Evals m test s (.ok v) t → v.kind? ≠ some .bool →
      Evals m (.cond test a b) s (Stop.raise (v.mismatch .bool "condition")) t
  | condStop {test a b : Expr} {s t : State σ} {x : Stop} :
      Evals m test s (.error x) t → Evals m (.cond test a b) s (.error x) t
  | loopAgain {body : Expr} {s t u : State σ} {v : Value} {r : Outcome} :
      Evals m body s (.ok v) t → Evals m (.loop body) t r u → Evals m (.loop body) s r u
  | loopBreak {body : Expr} {s t : State σ} {v : Value} :
      Evals m body s (.error (.brk v)) t → Evals m (.loop body) s (.ok v) t
  | loopReturn {body : Expr} {s t : State σ} {v : Value} :
      Evals m body s (.error (.ret v)) t → Evals m (.loop body) s (.error (.ret v)) t
  | loopFail {body : Expr} {s t : State σ} {f : Failure} :
      Evals m body s (.error (.fail f)) t → Evals m (.loop body) s (.error (.fail f)) t
  | ret {e : Expr} {s t : State σ} {v : Value} :
      Evals m e s (.ok v) t → Evals m (.ret e) s (.error (.ret v)) t
  | retStop {e : Expr} {s t : State σ} {x : Stop} :
      Evals m e s (.error x) t → Evals m (.ret e) s (.error x) t
  | brk {e : Expr} {s t : State σ} {v : Value} :
      Evals m e s (.ok v) t → Evals m (.brk e) s (.error (.brk v)) t
  | brkStop {e : Expr} {s t : State σ} {x : Stop} :
      Evals m e s (.error x) t → Evals m (.brk e) s (.error x) t

inductive InOrder (m : Machine σ) :
    List Expr → State σ → Except Stop (List Value) → State σ → Prop where
  | nil {s : State σ} : InOrder m [] s (.ok []) s
  | cons {e : Expr} {es : List Expr} {s t u : State σ} {v : Value} {vs : List Value} :
      Evals m e s (.ok v) t → InOrder m es t (.ok vs) u → InOrder m (e :: es) s (.ok (v :: vs)) u
  | later {e : Expr} {es : List Expr} {s t u : State σ} {v : Value} {x : Stop} :
      Evals m e s (.ok v) t → InOrder m es t (.error x) u → InOrder m (e :: es) s (.error x) u
  | stop {e : Expr} {es : List Expr} {s t : State σ} {x : Stop} :
      Evals m e s (.error x) t → InOrder m (e :: es) s (.error x) t

/-- A call. It ends plainly or with a failure that carries the calls active at that moment. -/
inductive Calls (m : Machine σ) : Path → List Value → State σ → Outcome → State σ → Prop where
  | unavailable {path : Path} {vs : List Value} {s : State σ} {c : Cause} :
      m.registry.acquire path s.world.held = .error c →
      Calls m path vs s (.error (.fail ((Failure.ofCause c).locate s.calls.reverse))) s
  | returns {path : Path} {vs : List Value} {s t : State σ} {f : Function} {held : Held}
      {v : Value} :
      m.registry.acquire path s.world.held = .ok (f, held) →
      Applies m path.item f vs (m.enter path f vs.length held s) (.ok v) t →
      Calls m path vs s (.ok v) (m.leave f (fun _ => .returned path v.inspect) t)
  | fails {path : Path} {vs : List Value} {s t : State σ} {f : Function} {held : Held}
      {x : Failure} :
      m.registry.acquire path s.world.held = .ok (f, held) →
      Applies m path.item f vs (m.enter path f vs.length held s) (.error (.fail x)) t →
      Calls m path vs s (.error (.fail (x.locate t.calls.reverse)))
        (m.leave f (fun _ => .failed path x.message) t)

/-- The run of a function: the boundary that returns and breaks do not cross. -/
inductive Applies (m : Machine σ) :
    String → Function → List Value → State σ → Outcome → State σ → Prop where
  | definedArity {name : String} {ps : List String} {body : Option (List Expr)} {vs : List Value}
      {s : State σ} : vs.length ≠ ps.length →
      Applies m name (.defined ps body) vs s (Stop.raise (.arity name ps.length vs.length)) s
  | bodyless {name : String} {ps : List String} {vs : List Value} {s : State σ} :
      vs.length = ps.length → Applies m name (.defined ps none) vs s (.ok .none) s
  | plain {name : String} {ps : List String} {es : List Expr} {vs ws : List Value} {s t : State σ} :
      vs.length = ps.length → InOrder m es (s.push (Frame.seed ps vs false)) (.ok ws) t →
      Applies m name (.defined ps (some es)) vs s (.ok (ws.getLastD .none)) t.pop
  | returned {name : String} {ps : List String} {es : List Expr} {vs : List Value} {s t : State σ}
      {v : Value} :
      vs.length = ps.length → InOrder m es (s.push (Frame.seed ps vs false)) (.error (.ret v)) t →
      Applies m name (.defined ps (some es)) vs s (.ok v) t.pop
  | broke {name : String} {ps : List String} {es : List Expr} {vs : List Value} {s t : State σ}
      {v : Value} :
      vs.length = ps.length → InOrder m es (s.push (Frame.seed ps vs false)) (.error (.brk v)) t →
      Applies m name (.defined ps (some es)) vs s (Stop.raise (.controlFlow (.brokeIn name))) t.pop
  | failed {name : String} {ps : List String} {es : List Expr} {vs : List Value} {s t : State σ}
      {x : Failure} :
      vs.length = ps.length → InOrder m es (s.push (Frame.seed ps vs false)) (.error (.fail x)) t →
      Applies m name (.defined ps (some es)) vs s (.error (.fail x)) t.pop
  | nativeArity {name : String} {id : NativeId} {arity : Nat} {handled : Bool} {vs : List Value}
      {s : State σ} : vs.length ≠ arity →
      Applies m name (.native id arity handled) vs s (Stop.raise (.arity name arity vs.length)) s
  | unhandled {name : String} {id : NativeId} {arity : Nat} {vs : List Value} {s : State σ} :
      vs.length = arity →
      Applies m name (.native id arity false) vs s
        (Stop.raise (.unsupported (.callWithoutHandler name))) s
  | replied {name : String} {id : NativeId} {arity : Nat} {vs : List Value} {s : State σ}
      {v : Value} {w : World σ} :
      vs.length = arity → Performs m (m.handlers id vs) s.world (.ok v) w →
      Applies m name (.native id arity true) vs s (.ok v.orNone) { s with world := w }
  | refused {name : String} {id : NativeId} {arity : Nat} {vs : List Value} {s : State σ}
      {x : Failure} {w : World σ} :
      vs.length = arity → Performs m (m.handlers id vs) s.world (.error x) w →
      Applies m name (.native id arity true) vs s (.error (.fail (x.wrap (.native name))))
        { s with world := w }
  | imported {name : String} {target : Path} {vs : List Value} {s : State σ} :
      Applies m name (.imported target) vs s (Stop.raise (.unsupported (.callImported target))) s

/-- The course of a handler. -/
inductive Performs (m : Machine σ) :
    Action σ → World σ → Except Failure Value → World σ → Prop where
  | reply {v : Value} {w : World σ} : Performs m (.reply v) w (.ok v) w
  | refuse {x : Failure} {w : World σ} : Performs m (.refuse x) w (.error x) w
  | get {next : σ → Action σ} {w w' : World σ} {r : Except Failure Value} :
      Performs m (next w.host) w r w' → Performs m (.get next) w r w'
  | put {host : σ} {next : Action σ} {w w' : World σ} {r : Except Failure Value} :
      Performs m next { w with host := host } r w' → Performs m (.put host next) w r w'
  | list {vs : List Value} {next : Value → Action σ} {w w' : World σ} {r : Except Failure Value} :
      Performs m (next (.list w.fresh vs)) w.skipHandle r w' → Performs m (.list vs next) w r w'
  | object {fs : List (String × Value)} {next : Value → Action σ} {w w' : World σ}
      {r : Except Failure Value} :
      Performs m (next (.object w.fresh fs)) w.skipHandle r w' → Performs m (.object fs next) w r w'
  | call {path : Path} {vs : List Value} {next : Except Failure Value → Action σ} {w w' : World σ}
      {x : Outcome} {t : State σ} {r : Except Failure Value} :
      Calls m path vs (State.start w) x t →
      Performs m (next (settle t.calls.reverse x)) t.world r w' → Performs m (.call path vs next) w r w'
  | evaluate {e : Expr} {next : Except Failure Value → Action σ} {w w' : World σ} {x : Outcome}
      {t : State σ} {r : Except Failure Value} :
      Evals m e (State.start w) x t →
      Performs m (next (settle t.calls.reverse x)) t.world r w' → Performs m (.evaluate e next) w r w'
  | acquire {path : Path} {next : Except Cause Function → Action σ} {w w' : World σ} {f : Function}
      {held : Held} {r : Except Failure Value} :
      m.registry.acquire path w.held = .ok (f, held) →
      Performs m (next (.ok f)) { w with held := held } r w' → Performs m (.acquire path next) w r w'
  | acquireRefused {path : Path} {next : Except Cause Function → Action σ} {w w' : World σ}
      {c : Cause} {r : Except Failure Value} :
      m.registry.acquire path w.held = .error c →
      Performs m (next (.error c)) w r w' → Performs m (.acquire path next) w r w'
  | release {f : Function} {next : Action σ} {w w' : World σ} {r : Except Failure Value} :
      Performs m next { w with held := f.release w.held } r w' → Performs m (.release f next) w r w'

end

end Machine

end Arbor
