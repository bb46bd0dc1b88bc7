import Arbor.Eval.Basic

/-!
A second evaluator, which is told the active calls.

`Reference.eval m n active e` evaluates `e` while the calls `active` are under way, the outermost
first. The list is an argument. It is longer by one call while a called function runs, and nowhere
else; a failure takes it along at the point where it arises (`Mishap`), and nothing adds to it or
replaces it on the way out. The context of a computation has no record of calls (`Site`).
-/

set_option autoImplicit false

namespace Arbor

/-- A failure as it arose, and the calls that were active there, the outermost first. -/
structure Mishap where
  failure : Failure
  active : List Path

def Mishap.located (x : Mishap) : Failure := x.failure.wrap (.located x.active)

namespace Reference

inductive Exit where
  | ret (value : Value)
  | brk (value : Value)
  | fail (mishap : Mishap)

structure Site (σ : Type) where
  scopes : Scopes
  world : World σ

/-- A computation that may exit with an `ε`; without an answer it has run out of fuel. -/
abbrev Course (σ ε α : Type) := ExceptT ε (StateT (Site σ) Option) α

variable {σ ε α : Type}

def exhausted : Course σ ε α := fun _ => none

/-- Goes on in either case. -/
def outcome {ε' : Type} (c : Course σ ε α) : Course σ ε' (Except ε α) := ExceptT.lift c.run

/-- Fails for a cause while the calls `active` are under way. -/
def refuse (active : List Path) (c : Cause) : Course σ Exit α := throw (.fail ⟨.ofCause c, active⟩)

def readName (active : List Path) (name : String) : Course σ Exit Value := do
  let s ← get
  (s.scopes.lookup? name).elim (refuse active (.unboundVariable name)) pure

def bindName (active : List Path) (name : String) (v : Value) : Course σ Exit Unit := do
  let s ← get
  (s.scopes.insert? name v).elim (refuse active (.controlFlow (.assigned name)))
    fun scopes => set { s with scopes := scopes }

def newHandle : Course σ Exit Handle := do
  let s ← get
  set { s with world := s.world.skipHandle }
  pure s.world.fresh

def check (active : List Path) : Except Cause α → Course σ Mishap α
  | .ok a => pure a
  | .error c => throw ⟨.ofCause c, active⟩

/-- The frame of a function, for as long as its body runs. -/
def inFrame (f : Frame) (c : Course σ Exit Value) : Course σ Mishap (Except Exit Value) := do
  modify fun s => { s with scopes := s.scopes.push f }
  let r ← outcome c
  modify fun s => { s with scopes := s.scopes.pop }
  pure r

/-- The end of a function body; a break that gets here arises as a failure here. -/
def endBody (active : List Path) (name : String) : Except Exit Value → Course σ Mishap Value
  | .ok v => pure v
  | .error (.ret v) => pure v
  | .error (.brk _) => throw ⟨.ofCause (.controlFlow (.brokeIn name)), active⟩
  | .error (.fail x) => throw x

/-- The end of a handler, which has seen the world only; its failure arises here once more. -/
def endHandler (active : List Path) (name : String)
    (c : World σ → Option (Except Failure Value × World σ)) : Course σ Mishap Value := fun s =>
  match c s.world with
  | none => none
  | some (.ok v, w) => some (.ok v.orNone, { s with world := w })
  | some (.error f, w) => some (.error ⟨f.wrap (.native name), active⟩, { s with world := w })

/-- The end of a context of its own, in which no call is active anymore. -/
def endContext : Except Exit Value → Except Mishap Value
  | .ok v => .ok v.orNone
  | .error (.ret _) => .error ⟨.ofCause (.controlFlow .returned), []⟩
  | .error (.brk _) => .error ⟨.ofCause (.controlFlow .broke), []⟩
  | .error (.fail x) => .error x

def apart (c : Course σ Exit Value) (w : World σ) : Option (Except Mishap Value × World σ) :=
  (c ⟨Scopes.empty, w⟩).map fun (r, s) => (endContext r, s.world)

/-- What is shown of the end of a context: a failure with its calls recorded on it. -/
def shown (p : Except Mishap Value × World σ) : Except Failure Value × World σ :=
  (p.1.mapError Mishap.located, p.2)

mutual

def eval (m : Machine σ) : Nat → List Path → Expr → Course σ Exit Value
  | 0, _, _ => exhausted
  | _ + 1, _, .absent => pure .none
  | _ + 1, _, .empty .block => pure .none
  | _ + 1, active, .empty type => refuse active (.unsupported (.evaluateEmpty type))
  | n + 1, active, .block body => evalBlock m n active .none body
  | n + 1, active, .assign name e => do
    let v ← eval m n active e
    bindName active name v
    pure v
  | _ + 1, active, .var name => readName active name
  | _ + 1, _, .string s => pure (.string s)
  | _ + 1, _, .integer i => pure (.integer i)
  | _ + 1, _, .float x => pure (.float x)
  | _ + 1, _, .bool b => pure (.bool b)
  | n + 1, active, .list es => do
    let vs ← evalAll m n active es
    let h ← newHandle
    pure (.list h vs)
  | n + 1, active, .map es => do
    let fs ← evalEntries m n active [] es
    let h ← newHandle
    pure (.object h fs)
  | n + 1, active, .call path es => do
    let vs ← evalAll m n active es
    ExceptT.adapt Exit.fail (callPath m n active path vs)
  | n + 1, active, .cond test a b => do
    match (← eval m n active test).expectTest with
    | .ok true => eval m n active a
    | .ok false => eval m n active b
    | .error c => refuse active c
  | n + 1, active, .loop body => do
    match ← outcome (eval m n active body) with
    | .ok _ => eval m n active (.loop body)
    | .error (.brk v) => pure v
    | .error x => throw x
  | n + 1, active, .ret e => do throw (.ret (← eval m n active e))
  | n + 1, active, .brk e => do throw (.brk (← eval m n active e))

def evalBlock (m : Machine σ) : Nat → List Path → Value → List Expr → Course σ Exit Value
  | 0, _, _, _ => exhausted
  | _ + 1, _, last, [] => pure last
  | n + 1, active, _, e :: es => do
    let v ← eval m n active e
    evalBlock m n active v es

def evalAll (m : Machine σ) : Nat → List Path → List Expr → Course σ Exit (List Value)
  | 0, _, _ => exhausted
  | _ + 1, _, [] => pure []
  | n + 1, active, e :: es => do
    let v ← eval m n active e
    let vs ← evalAll m n active es
    pure (v :: vs)

def evalEntries (m : Machine σ) :
    Nat → List Path → Table Value → List Entry → Course σ Exit (Table Value)
  | 0, _, _, _ => exhausted
  | _ + 1, _, fields, [] => pure fields
  | n + 1, active, fields, .blank :: es => evalEntries m n active fields es
  | n + 1, active, fields, .field key e :: es => do
    let v ← eval m n active e
    evalEntries m n active (Table.insert fields key v) es

/-- A function that cannot be had fails under the calls around it; one that runs is a call more. -/
def callPath (m : Machine σ) : Nat → List Path → Path → List Value → Course σ Mishap Value
  | 0, _, _, _ => exhausted
  | n + 1, active, path, vs => fun s =>
    match m.registry.acquire path s.world.held with
    | .error c => some (.error ⟨.ofCause c, active⟩, s)
    | .ok (f, held) =>
      let inside := active ++ [path]
      let w := m.note (fun _ => .called path f.kind vs.length inside.length)
        { s.world with held := held }
      match run m n inside path.item f vs { s with world := w } with
      | none => none
      | some (r, t) =>
        let w := m.note (fun _ =>
          match r with
          | .ok v => .returned path v.inspect
          | .error x => .failed path x.failure.message) t.world
        some (r, { t with world := { w with held := f.release w.held } })

def run (m : Machine σ) :
    Nat → List Path → String → Function → List Value → Course σ Mishap Value
  | 0, _, _, _, _ => exhausted
  | n + 1, active, name, .defined parameters body, vs => do
    check active (checkArity name parameters.length vs)
    match body with
    | none => pure .none
    | some es =>
      let r ← inFrame (Frame.seed parameters vs false) (evalBlock m n active .none es)
      endBody active name r
  | n + 1, active, name, .native id arity handled, vs => do
    check active (checkArity name arity vs)
    if handled then endHandler active name (perform m n (m.handlers id vs))
    else throw ⟨.ofCause (.unsupported (.callWithoutHandler name)), active⟩
  | _ + 1, active, _, .imported target, _ =>
    throw ⟨.ofCause (.unsupported (.callImported target)), active⟩

/-- The handler's own calls and evaluations begin without active calls. -/
def perform (m : Machine σ) : Nat → Action σ → World σ → Option (Except Failure Value × World σ)
  | 0, _, _ => none
  | _ + 1, .reply v, w => some (.ok v, w)
  | _ + 1, .refuse f, w => some (.error f, w)
  | n + 1, .get next, w => perform m n (next w.host) w
  | n + 1, .put host next, w => perform m n next { w with host := host }
  | n + 1, .list vs next, w => perform m n (next (.list w.fresh vs)) w.skipHandle
  | n + 1, .object fs next, w => perform m n (next (.object w.fresh fs)) w.skipHandle
  | n + 1, .call path vs next, w =>
    ((apart (ExceptT.adapt Exit.fail (callPath m n [] path vs)) w).map shown).bind fun p =>
      perform m n (next p.1) p.2
  | n + 1, .evaluate e next, w =>
    ((apart (eval m n [] e) w).map shown).bind fun p => perform m n (next p.1) p.2
  | n + 1, .acquire path next, w =>
    match m.registry.acquire path w.held with
    | .error c => perform m n (next (.error c)) w
    | .ok (f, held) => perform m n (next (.ok f)) { w with held := held }
  | n + 1, .release f next, w => perform m n next { w with held := f.release w.held }

end

def evaluate (m : Machine σ) (fuel : Nat) (e : Expr) (w : World σ) :
    Option (Except Mishap Value × World σ) :=
  apart (eval m fuel [] e) w

def call (m : Machine σ) (fuel : Nat) (path : Path) (vs : List Value) (w : World σ) :
    Option (Except Mishap Value × World σ) :=
  apart (ExceptT.adapt Exit.fail (callPath m fuel [] path vs)) w

end Reference

end Arbor
