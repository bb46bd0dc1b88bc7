import Arbor.Proofs.Eval.Soundness

/-!
Two runs side by side.

Two contexts that differ in their outer calls, in frames that cannot be seen and in what was traced
so far are taken through the same computation step by step. `Lockstep` says of a pair of
computations that from such contexts either both have no answer, or both end alike, in contexts that
again differ in nothing else. All that can tell the ends apart are the outer calls `base` and
`base'` at the root of a recorded stack (`Moved`).

* `Viewed V`: scopes related by `V` answer every look-up alike and stay related when a name is bound.
* `Paired m m' n`: with fuel `n` the machines run in lockstep, in every function of the evaluator.
* `paired`: a machine runs in lockstep with itself, traced or not.
-/

set_option autoImplicit false

namespace Arbor

variable {σ α β : Type}

/-! ## Stacks with another root -/

/-- The same failure, recorded on top of `base'` in place of `base`, the innermost call first. -/
inductive Failure.Moved (base base' : List Path) : Failure → Failure → Prop where
  | bare {f : Failure} : f.isLocated = false → Failure.Moved base base' f f
  | located {stack : List Path} {layers : List Layer} {cause : Option Cause} :
      Failure.Moved base base' ⟨.located (base.reverse ++ stack) :: layers, cause⟩
        ⟨.located (base'.reverse ++ stack) :: layers, cause⟩

/-- The same stop up to the root of its stack. -/
inductive Stop.Moved (base base' : List Path) : Stop → Stop → Prop where
  | ret {v : Value} : Stop.Moved base base' (.ret v) (.ret v)
  | brk {v : Value} : Stop.Moved base base' (.brk v) (.brk v)
  | fail {f f' : Failure} : f.Moved base base' f' → Stop.Moved base base' (.fail f) (.fail f')

/-- The same end up to the root of its stack. -/
inductive Moved (base base' : List Path) : Except Stop α → Except Stop α → Prop where
  | ok {a : α} : Moved base base' (.ok a) (.ok a)
  | error {x x' : Stop} : x.Moved base base' x' → Moved base base' (.error x) (.error x')

section Moved
variable {base base' : List Path}

theorem Failure.Moved.locate {f f' : Failure} (h : f.Moved base base' f') (inner : List Path) :
    (f.locate (inner ++ base).reverse).Moved base base' (f'.locate (inner ++ base').reverse) := by
  cases h with
  | bare hf =>
    rw [List.reverse_append, List.reverse_append, Failure.locate, Failure.locate, hf]
    exact .located
  | located => exact .located

theorem Stop.Moved.failure {x x' : Stop} (h : x.Moved base base' x') :
    x.failure.Moved base base' x'.failure := by
  cases h with
  | ret => exact .bare rfl
  | brk => exact .bare rfl
  | fail h => exact h

theorem Moved.boundary {r r' : Except Stop Value} (h : Moved base base' r r') (name : String) :
    Moved base base' (boundary name r) (boundary name r') := by
  cases h with
  | ok => exact .ok
  | error h =>
    cases h with
    | ret => exact .ok
    | brk => exact .error (.fail (.bare rfl))
    | fail h => exact .error (.fail h)

theorem Failure.Moved.eq_of_same {f f' : Failure} (h : f.Moved base base f') : f' = f := by
  cases h <;> rfl

theorem Moved.eq_of_same {r r' : Except Stop α} (h : Moved base base r r') : r' = r := by
  cases h with
  | ok => rfl
  | error h =>
    cases h with
    | ret => rfl
    | brk => rfl
    | fail h => rw [h.eq_of_same]

end Moved

/-! ## Contexts that look alike -/

/-- The worlds agree in the state of the host, the functions in use and the next free handle. -/
structure World.Same (w w' : World σ) : Prop where
  host : w'.host = w.host
  held : w'.held = w.held
  fresh : w'.fresh = w.fresh

theorem World.Same.refl (w : World σ) : w.Same w := ⟨rfl, rfl, rfl⟩

theorem World.Same.note {w w' : World σ} (h : w.Same w') (m m' : Machine σ) (e e' : Unit → Event) :
    (m.note e w).Same (m'.note e' w') where
  host := by rw [Machine.note_host, Machine.note_host, h.host]
  held := by rw [Machine.note_held, Machine.note_held, h.held]
  fresh := by rw [Machine.note_fresh, Machine.note_fresh, h.fresh]

theorem World.Same.setHeld {w w' : World σ} (h : w.Same w') (held : Held) :
    World.Same { w with held := held } { w' with held := held } := ⟨h.host, rfl, h.fresh⟩

theorem World.Same.skipHandle {w w' : World σ} (h : w.Same w') : w.skipHandle.Same w'.skipHandle :=
  ⟨h.host, h.held, congrArg (· + 1) h.fresh⟩

/-- Answers from the world alone are the same, or there are none. -/
def SameAnswer (q q' : Option (α × World σ)) : Prop :=
  Option.Rel (fun p p' : α × World σ => p'.1 = p.1 ∧ p.2.Same p'.2) q q'

theorem SameAnswer.bind {q q' : Option (α × World σ)} {f f' : α × World σ → Option (β × World σ)}
    (hq : SameAnswer q q')
    (hf : ∀ (x : α) (w w' : World σ), w.Same w' → SameAnswer (f (x, w)) (f' (x, w'))) :
    SameAnswer (q.bind f) (q'.bind f') := by
  cases hq with
  | none => exact .none
  | @some p p' h =>
    obtain ⟨x, w⟩ := p
    obtain ⟨x', w'⟩ := p'
    obtain ⟨hx, hw⟩ := h
    cases hx
    exact hf x w w' hw

/-- Scopes that are related answer look-ups alike and stay related. -/
structure Viewed (V : Scopes → Scopes → Prop) : Prop where
  lookup : ∀ {a b : Scopes} (x : String), V a b → b.lookup? x = a.lookup? x
  insert : ∀ {a b : Scopes} (x : String) (v : Value), V a b →
    Option.Rel V (a.insert? x v) (b.insert? x v)

/-- Scopes with the same closed frame on top of any others. -/
inductive Covered (below below' : List Frame) : Scopes → Scopes → Prop where
  | mk {f : Frame} : f.bubbles = false → Covered below below' ⟨f :: below⟩ ⟨f :: below'⟩

theorem viewed_covered (below below' : List Frame) : Viewed (Covered below below') where
  lookup := by
    rintro _ _ x ⟨hf⟩
    simp only [Scopes.lookup?, Scopes.search, hf, Bool.false_eq_true, if_false]
  insert := by
    rintro _ _ x v ⟨hf⟩
    exact .some ⟨hf⟩

theorem viewed_eq : Viewed Eq where
  lookup := by
    rintro a _ x rfl
    rfl
  insert := by
    rintro a _ x v rfl
    cases a.insert? x v with
    | none => exact .none
    | some b => exact .some rfl

/-- Contexts that differ in the outer calls and in what cannot be seen. -/
structure Twin (V : Scopes → Scopes → Prop) (inner base base' : List Path) (s s' : State σ) :
    Prop where
  scopes : V s.scopes s'.scopes
  calls : s.calls = inner ++ base
  calls' : s'.calls = inner ++ base'
  world : s.world.Same s'.world

/-- From contexts that look alike both computations end alike, or neither has an answer. -/
def Lockstep (V : Scopes → Scopes → Prop) (inner base base' : List Path) (c c' : Eval σ α) : Prop :=
  ∀ s s', Twin V inner base base' s s' →
    Option.Rel (fun p p' => Moved base base' p.1 p'.1 ∧ Twin V inner base base' p.2 p'.2)
      (c s) (c' s')

namespace Lockstep

variable {V : Scopes → Scopes → Prop} {inner base base' : List Path}

theorem exhausted : Lockstep (α := α) (σ := σ) V inner base base' Eval.exhausted Eval.exhausted :=
  fun _ _ _ => .none

theorem pure (a : α) : Lockstep (σ := σ) V inner base base' (Eval.pure a) (Eval.pure a) :=
  fun _ _ h => .some ⟨.ok, h⟩

theorem stop {x x' : Stop} (hx : x.Moved base base' x') :
    Lockstep (σ := σ) (α := α) V inner base base' (Eval.stop x) (Eval.stop x') :=
  fun _ _ h => .some ⟨.error hx, h⟩

theorem refuse (c : Cause) :
    Lockstep (σ := σ) (α := α) V inner base base' (Eval.refuse c) (Eval.refuse c) :=
  stop (.fail (.bare rfl))

theorem ofCheck (r : Except Cause α) :
    Lockstep (σ := σ) V inner base base' (Eval.ofCheck r) (Eval.ofCheck r) := by
  cases r with
  | ok a => exact pure a
  | error c => exact refuse c

theorem bind {c c' : Eval σ α} {f f' : α → Eval σ β} (hc : Lockstep V inner base base' c c')
    (hf : ∀ a, Lockstep V inner base base' (f a) (f' a)) :
    Lockstep V inner base base' (c >>= f) (c' >>= f') := by
  intro s s' hs
  change Option.Rel _ (Eval.bind c f s) (Eval.bind c' f' s')
  unfold Eval.bind
  have hrel := hc s s' hs
  generalize c s = p, c' s' = p' at hrel
  cases hrel with
  | none => exact .none
  | @some p p' h =>
    obtain ⟨r, t⟩ := p
    obtain ⟨r', t'⟩ := p'
    obtain ⟨hr, ht⟩ := h
    cases hr with
    | ok => exact hf _ t t' ht
    | error hx => exact .some ⟨.error hx, ht⟩

/-- A computation whose end is looked at goes on with two ends that differ at most in the root of
their stacks. -/
theorem bindResult {c c' : Eval σ α} {f f' : Except Stop α → Eval σ β}
    (hc : Lockstep V inner base base' c c')
    (hf : ∀ r r', Moved base base' r r' → Lockstep V inner base base' (f r) (f' r')) :
    Lockstep V inner base base' (Eval.result c >>= f) (Eval.result c' >>= f') := by
  intro s s' hs
  change Option.Rel _ (Eval.bind (Eval.result c) f s) (Eval.bind (Eval.result c') f' s')
  unfold Eval.bind Eval.result
  have hrel := hc s s' hs
  generalize c s = p, c' s' = p' at hrel
  cases hrel with
  | none => exact .none
  | @some p p' h =>
    obtain ⟨r, t⟩ := p
    obtain ⟨r', t'⟩ := p'
    exact hf r r' h.1 t t' h.2

theorem done {r r' : Except Stop α} (h : Moved base base' r r') :
    Lockstep (σ := σ) V inner base base' (Eval.done r) (Eval.done r') :=
  fun _ _ hs => .some ⟨h, hs⟩

/-- The frame of a function covers whatever frames lie below it. -/
theorem bindFrame {frame : Frame} {c c' : Eval σ α} {f f' : Except Stop α → Eval σ β}
    (hframe : frame.bubbles = false)
    (hc : ∀ below below', Lockstep (Covered below below') inner base base' c c')
    (hf : ∀ r r', Moved base base' r r' → Lockstep V inner base base' (f r) (f' r')) :
    Lockstep V inner base base' (Eval.inFrame frame c >>= f) (Eval.inFrame frame c' >>= f') := by
  intro s s' hs
  change Option.Rel _ (Eval.bind (Eval.inFrame frame c) f s) (Eval.bind (Eval.inFrame frame c') f' s')
  unfold Eval.bind Eval.inFrame
  have hrel := hc s.scopes.frames s'.scopes.frames (s.push frame) (s'.push frame)
    ⟨⟨hframe⟩, hs.calls, hs.calls', hs.world⟩
  generalize c (s.push frame) = p, c' (s'.push frame) = p' at hrel
  cases hrel with
  | none => exact .none
  | @some p p' h =>
    obtain ⟨r, t⟩ := p
    obtain ⟨r', t'⟩ := p'
    obtain ⟨hr, ht⟩ := h
    -- the frames below were covered all the time, so that they are still there
    have hpop : t.pop.scopes = s.scopes ∧ t'.pop.scopes = s'.scopes := by
      obtain ⟨scopes, calls, world⟩ := t
      obtain ⟨scopes', calls', world'⟩ := t'
      obtain ⟨hg⟩ := ht.scopes
      exact ⟨rfl, rfl⟩
    refine hf r r' hr t.pop t'.pop ⟨?_, ht.calls, ht.calls', ht.world⟩
    rw [hpop.1, hpop.2]
    exact hs.scopes

/-- A computation on the world alone. -/
theorem onWorld {c c' : World σ → Option (α × World σ)}
    (hc : ∀ w w', w.Same w' → SameAnswer (c w) (c' w')) :
    Lockstep V inner base base' (Eval.onWorld c) (Eval.onWorld c') := by
  intro s s' hs
  unfold Eval.onWorld
  have hrel := hc s.world s'.world hs.world
  generalize c s.world = p, c' s'.world = p' at hrel
  cases hrel with
  | none => exact .none
  | @some p p' h =>
    obtain ⟨a, w⟩ := p
    obtain ⟨a', w'⟩ := p'
    obtain ⟨ha, hw⟩ := h
    cases ha
    exact .some ⟨.ok, hs.scopes, hs.calls, hs.calls', hw⟩

theorem newHandle : Lockstep (σ := σ) V inner base base' Eval.newHandle Eval.newHandle := by
  intro s s' hs
  unfold Eval.newHandle
  rw [hs.world.fresh]
  exact .some ⟨.ok, hs.scopes, hs.calls, hs.calls', hs.world.skipHandle⟩

theorem readName (hV : Viewed V) (x : String) :
    Lockstep (σ := σ) V inner base base' (Eval.readName x) (Eval.readName x) := by
  intro s s' hs
  unfold Eval.readName
  rw [hV.lookup x hs.scopes]
  cases s.scopes.lookup? x with
  | none => exact refuse _ s s' hs
  | some v => exact .some ⟨.ok, hs⟩

theorem bindName (hV : Viewed V) (x : String) (v : Value) :
    Lockstep (σ := σ) V inner base base' (Eval.bindName x v) (Eval.bindName x v) := by
  intro s s' hs
  unfold Eval.bindName
  have hrel := hV.insert x v hs.scopes
  generalize s.scopes.insert? x v = a, s'.scopes.insert? x v = a' at hrel
  cases hrel with
  | none => exact refuse _ s s' hs
  | some ha => exact .some ⟨.ok, ha, hs.calls, hs.calls', hs.world⟩

end Lockstep

/-! ## The evaluator -/

/-- The machine with its calls recorded or not. -/
def Machine.tracing (m : Machine σ) (b : Bool) : Machine σ := { m with traced := b }

section Around
variable {V : Scopes → Scopes → Prop} {inner base base' : List Path} (m : Machine σ) (b : Bool)

theorem Twin.enter {s s' : State σ} (h : Twin V inner base base' s s') (path : Path) (f : Function)
    (k : Nat) (held : Held) :
    Twin V (path :: inner) base base' (m.enter path f k held s)
      ((m.tracing b).enter path f k held s') where
  scopes := h.scopes
  calls := congrArg (path :: ·) h.calls
  calls' := congrArg (path :: ·) h.calls'
  world := by
    dsimp only [Machine.enter]
    exact (h.world.setHeld held).note m (m.tracing b) _ _

theorem Twin.leave {path : Path} {t t' : State σ} (h : Twin V (path :: inner) base base' t t')
    (f : Function) (e e' : Unit → Event) :
    Twin V inner base base' (m.leave f e t) ((m.tracing b).leave f e' t') where
  scopes := h.scopes
  calls := congrArg List.tail h.calls
  calls' := congrArg List.tail h.calls'
  world := by
    have hn := h.world.note m (m.tracing b) e e'
    exact ⟨hn.host, congrArg f.release hn.held, hn.fresh⟩

end Around

namespace Machine

/-- With this amount of fuel the machine runs in lockstep with itself, traced or not. -/
structure Paired (m : Machine σ) (b : Bool) (n : Nat) : Prop where
  eval : ∀ {V : Scopes → Scopes → Prop} (_ : Viewed V) (inner base base' : List Path) (e : Expr),
    Lockstep V inner base base' (m.eval n e) ((m.tracing b).eval n e)
  block : ∀ {V : Scopes → Scopes → Prop} (_ : Viewed V) (inner base base' : List Path)
      (last : Value) (es : List Expr),
    Lockstep V inner base base' (m.evalBlock n last es) ((m.tracing b).evalBlock n last es)
  all : ∀ {V : Scopes → Scopes → Prop} (_ : Viewed V) (inner base base' : List Path)
      (es : List Expr),
    Lockstep V inner base base' (m.evalAll n es) ((m.tracing b).evalAll n es)
  entries : ∀ {V : Scopes → Scopes → Prop} (_ : Viewed V) (inner base base' : List Path)
      (fields : Table Value) (es : List Entry),
    Lockstep V inner base base' (m.evalEntries n fields es) ((m.tracing b).evalEntries n fields es)
  call : ∀ (V : Scopes → Scopes → Prop) (inner base base' : List Path) (path : Path)
      (vs : List Value),
    Lockstep V inner base base' (m.callPath n path vs) ((m.tracing b).callPath n path vs)
  run : ∀ (V : Scopes → Scopes → Prop) (inner base base' : List Path) (name : String)
      (f : Function) (vs : List Value),
    Lockstep V inner base base' (m.run n name f vs) ((m.tracing b).run n name f vs)
  perform : ∀ (a : Action σ) {w w' : World σ}, w.Same w' →
    SameAnswer (m.perform n a w) ((m.tracing b).perform n a w')

variable {m : Machine σ} {b : Bool} {n : Nat} {V : Scopes → Scopes → Prop}
  {inner base base' : List Path}

theorem paired_eval (ih : Paired m b n) (hV : Viewed V) (e : Expr) :
    Lockstep V inner base base' (m.eval (n + 1) e) ((m.tracing b).eval (n + 1) e) := by
  cases e with
  | absent =>
    rw [eval, eval]
    exact .pure _
  | empty type =>
    by_cases hb : type = .block
    · subst hb
      rw [eval, eval]
      exact .pure _
    · rw [eval, eval]
      · exact .refuse _
      · exact hb
      · exact hb
  | block es =>
    rw [eval, eval]
    exact ih.block hV inner base base' .none es
  | assign name e =>
    rw [eval, eval]
    refine .bind (ih.eval hV inner base base' e) fun v => ?_
    exact .bind (.bindName hV name v) fun _ => .pure v
  | var name =>
    rw [eval, eval]
    exact .readName hV name
  | string x =>
    rw [eval, eval]
    exact .pure _
  | integer x =>
    rw [eval, eval]
    exact .pure _
  | float x =>
    rw [eval, eval]
    exact .pure _
  | bool x =>
    rw [eval, eval]
    exact .pure _
  | list es =>
    rw [eval, eval]
    refine .bind (ih.all hV inner base base' es) fun vs => ?_
    exact .bind .newHandle fun h => .pure _
  | map es =>
    rw [eval, eval]
    refine .bind (ih.entries hV inner base base' [] es) fun fs => ?_
    exact .bind .newHandle fun h => .pure _
  | call path es =>
    rw [eval, eval]
    exact .bind (ih.all hV inner base base' es) fun vs => ih.call V inner base base' path vs
  | cond test a b' =>
    rw [eval, eval]
    refine .bind (ih.eval hV inner base base' test) fun v => ?_
    refine .bind (.ofCheck v.expectTest) fun yes => ?_
    cases yes with
    | true => exact ih.eval hV inner base base' a
    | false => exact ih.eval hV inner base base' b'
  | loop body =>
    rw [eval, eval]
    refine .bindResult (ih.eval hV inner base base' body) fun r r' hr => ?_
    cases hr with
    | ok => exact ih.eval hV inner base base' (.loop body)
    | error hx =>
      cases hx with
      | ret => exact .stop .ret
      | brk => exact .pure _
      | fail hf => exact .stop (.fail hf)
  | ret e =>
    rw [eval, eval]
    exact .bind (ih.eval hV inner base base' e) fun v => .stop .ret
  | brk e =>
    rw [eval, eval]
    exact .bind (ih.eval hV inner base base' e) fun v => .stop .brk

theorem paired_block (ih : Paired m b n) (hV : Viewed V) (last : Value) (es : List Expr) :
    Lockstep V inner base base' (m.evalBlock (n + 1) last es)
      ((m.tracing b).evalBlock (n + 1) last es) := by
  cases es with
  | nil =>
    rw [evalBlock, evalBlock]
    exact .pure _
  | cons e es =>
    rw [evalBlock, evalBlock]
    exact .bind (ih.eval hV inner base base' e) fun v => ih.block hV inner base base' v es

theorem paired_all (ih : Paired m b n) (hV : Viewed V) (es : List Expr) :
    Lockstep V inner base base' (m.evalAll (n + 1) es) ((m.tracing b).evalAll (n + 1) es) := by
  cases es with
  | nil =>
    rw [evalAll, evalAll]
    exact .pure _
  | cons e es =>
    rw [evalAll, evalAll]
    refine .bind (ih.eval hV inner base base' e) fun v => ?_
    exact .bind (ih.all hV inner base base' es) fun vs => .pure _

theorem paired_entries (ih : Paired m b n) (hV : Viewed V) (fields : Table Value)
    (es : List Entry) :
    Lockstep V inner base base' (m.evalEntries (n + 1) fields es)
      ((m.tracing b).evalEntries (n + 1) fields es) := by
  cases es with
  | nil =>
    rw [evalEntries, evalEntries]
    exact .pure _
  | cons entry es =>
    cases entry with
    | blank =>
      rw [evalEntries, evalEntries]
      exact ih.entries hV inner base base' fields es
    | field key e =>
      rw [evalEntries, evalEntries]
      refine .bind (ih.eval hV inner base base' e) fun v => ?_
      exact ih.entries hV inner base base' (Table.insert fields key v) es

theorem paired_call (ih : Paired m b n) (path : Path) (vs : List Value) :
    Lockstep V inner base base' (m.callPath (n + 1) path vs)
      ((m.tracing b).callPath (n + 1) path vs) := by
  intro s s' hs
  rw [callPath, callPath]
  dsimp only
  rw [show (m.tracing b).registry = m.registry from rfl, hs.world.held]
  cases m.registry.acquire path s.world.held with
  | error c =>
    refine .some ⟨.error (.fail ?_), hs⟩
    rw [hs.calls, hs.calls']
    exact Failure.Moved.locate (.bare rfl) inner
  | ok p =>
    obtain ⟨f, held⟩ := p
    have hrel := ih.run V (path :: inner) base base' path.item f vs _ _
      (hs.enter m b path f vs.length held)
    dsimp only
    generalize m.run n path.item f vs _ = q, (m.tracing b).run n path.item f vs _ = q' at hrel
    cases hrel with
    | none => exact .none
    | @some q q' h =>
      obtain ⟨r, t⟩ := q
      obtain ⟨r', t'⟩ := q'
      obtain ⟨hr, ht⟩ := h
      cases hr with
      | ok => exact .some ⟨.ok, ht.leave m b f _ _⟩
      | error hx =>
        -- the callee is still active when the stack is recorded
        refine .some ⟨.error (.fail ?_), ht.leave m b f _ _⟩
        rw [ht.calls, ht.calls']
        exact hx.failure.locate (path :: inner)

theorem paired_run (ih : Paired m b n) (name : String) (f : Function) (vs : List Value) :
    Lockstep V inner base base' (m.run (n + 1) name f vs) ((m.tracing b).run (n + 1) name f vs) := by
  cases f with
  | defined ps body =>
    cases body with
    | none =>
      rw [run, run]
      exact .bind (.ofCheck _) fun _ => .pure _
    | some es =>
      rw [run, run]
      refine .bind (.ofCheck _) fun _ => ?_
      refine .bindFrame rfl (fun below below' => ?_) fun r r' hr => ?_
      · exact ih.block (viewed_covered below below') inner base base' .none es
      · exact .done (hr.boundary name)
  | native id arity handled =>
    rw [run, run]
    refine .bind (.ofCheck _) fun _ => ?_
    cases handled with
    | false => exact .refuse _
    | true =>
      refine .bind (.onWorld fun w w' hw => ih.perform (m.handlers id vs) hw) fun r => ?_
      cases r with
      | ok v => exact .pure _
      | error x => exact .stop (.fail (.bare rfl))
  | imported target =>
    rw [run, run]
    exact .refuse _

/-- A computation in a context of its own does not see the difference at all. -/
theorem sameAnswer_apart {c c' : Eval σ Value} (hc : Lockstep Eq [] [] [] c c') {w w' : World σ}
    (hw : w.Same w') :
    SameAnswer (apart c w) (apart c' w') := by
  have hrel := hc (State.start w) (State.start w') ⟨rfl, rfl, rfl, hw⟩
  unfold apart
  generalize c (State.start w) = q, c' (State.start w') = q' at hrel
  cases hrel with
  | none => exact .none
  | @some q q' h =>
    obtain ⟨r, t⟩ := q
    obtain ⟨r', t'⟩ := q'
    obtain ⟨hr, ht⟩ := h
    have hcalls : t'.calls = t.calls := ht.calls'.trans ht.calls.symm
    have hends : settle t'.calls.reverse r' = settle t.calls.reverse r := by
      rw [hcalls, show r' = r from hr.eq_of_same]
    exact .some ⟨hends, ht.world⟩

theorem paired_perform (ih : Paired m b n) (a : Action σ) {w w' : World σ} (hw : w.Same w') :
    SameAnswer (m.perform (n + 1) a w) ((m.tracing b).perform (n + 1) a w') := by
  cases a with
  | reply v =>
    rw [perform, perform]
    exact .some ⟨rfl, hw⟩
  | refuse x =>
    rw [perform, perform]
    exact .some ⟨rfl, hw⟩
  | get next =>
    rw [perform, perform, hw.host]
    exact ih.perform (next w.host) hw
  | put host next =>
    rw [perform, perform]
    exact ih.perform next ⟨rfl, hw.held, hw.fresh⟩
  | list vs next =>
    rw [perform, perform, hw.fresh]
    exact ih.perform _ hw.skipHandle
  | object fs next =>
    rw [perform, perform, hw.fresh]
    exact ih.perform _ hw.skipHandle
  | call path vs next =>
    rw [perform, perform]
    refine (sameAnswer_apart (ih.call Eq [] [] [] path vs) hw).bind fun r u u' hu => ?_
    exact ih.perform (next r) hu
  | evaluate e next =>
    rw [perform, perform]
    refine (sameAnswer_apart (ih.eval viewed_eq [] [] [] e) hw).bind fun r u u' hu => ?_
    exact ih.perform (next r) hu
  | acquire path next =>
    rw [perform, perform, show (m.tracing b).registry = m.registry from rfl, hw.held]
    cases m.registry.acquire path w.held with
    | error c => exact ih.perform (next (.error c)) hw
    | ok p =>
      obtain ⟨f, held⟩ := p
      exact ih.perform (next (.ok f)) (hw.setHeld held)
  | release f next =>
    rw [perform, perform, hw.held]
    exact ih.perform next (hw.setHeld _)

theorem paired (m : Machine σ) (b : Bool) : ∀ n, Paired m b n
  | 0 => by
    refine ⟨?_, ?_, ?_, ?_, ?_, ?_, ?_⟩
    · intro V hV inner base base' e
      exact .exhausted
    · intro V hV inner base base' last es
      exact .exhausted
    · intro V hV inner base base' es
      exact .exhausted
    · intro V hV inner base base' fields es
      exact .exhausted
    · intro V inner base base' path vs
      exact .exhausted
    · intro V inner base base' name f vs
      exact .exhausted
    · intro a w w' hw
      exact .none
  | n + 1 =>
    have ih := paired m b n
    { eval := fun hV _ _ _ e => paired_eval ih hV e
      block := fun hV _ _ _ last es => paired_block ih hV last es
      all := fun hV _ _ _ es => paired_all ih hV es
      entries := fun hV _ _ _ fields es => paired_entries ih hV fields es
      call := fun _ _ _ _ path vs => paired_call ih path vs
      run := fun _ _ _ _ name f vs => paired_run ih name f vs
      perform := fun a _ _ hw => paired_perform ih a hw }

end Machine

end Arbor
