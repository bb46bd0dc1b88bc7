import Arbor.Proofs.Eval.Isolation

/-!
The trace of a run.

A machine that records its calls answers as one that does not. What it records nests: a call, the
calls made inside of it, and its end (`Trace.Balanced`). A context is seen in the trace only through
native functions, since whatever is called while one of them is the innermost open call is called
by its handler, in a context of its own. `Trace.Nested` carries the open calls along, so that the
depth of each call can be compared with those of its context; `Evals.adds` and the four lemmas with
it show that every run adds such a piece to the trace, and `Trace.Nested.bracketed` reads off what
this says about the single events.
-/

set_option autoImplicit false

namespace Arbor

variable {σ : Type}

/-! ## Sequences of events -/

namespace Trace

/-- The event ends a call of the function. -/
def Closes (path : Path) : Event → Prop
  | .called .. => False
  | .returned p _ => p = path
  | .failed p _ => p = path

/-- Calls in a row, each with balanced events between its beginning and its end. -/
inductive Balanced : List Event → Prop where
  | nil : Balanced []
  | call {path : Path} {kind : FunctionKind} {k depth : Nat} {inside after : List Event}
      {close : Event} : Closes path close → Balanced inside → Balanced after →
      Balanced (.called path kind k depth :: (inside ++ close :: after))

/-- A call that has begun and not ended. -/
structure Open where
  path : Path
  kind : FunctionKind

/-- The open calls after one more event, the innermost first. -/
def follow (stack : List Open) : Event → List Open
  | .called path kind _ _ => ⟨path, kind⟩ :: stack
  | .returned .. => stack.tail
  | .failed .. => stack.tail

/-- The calls that are open after the events. -/
def stillOpen (es : List Event) : List Open := es.foldl follow []

/-- The open calls of the context that is running: those above the innermost native function. -/
def context (stack : List Open) : List Open := stack.takeWhile (·.kind ≠ .native)

/-- What the trace of a whole run is. -/
structure Bracketed (es : List Event) : Prop where
  balanced : Balanced es
  /-- Each call has one end, with balanced events between them. -/
  closed : ∀ before path kind k depth rest, es = before ++ .called path kind k depth :: rest →
    ∃! p : List Event × Event × List Event,
      rest = p.1 ++ p.2.1 :: p.2.2 ∧ Closes path p.2.1 ∧ Balanced p.1
  /-- The depth of a call counts the open calls of its context, itself among them. -/
  depth : ∀ before path kind k depth rest, es = before ++ .called path kind k depth :: rest →
    depth = (context (stillOpen before)).length + 1

/-- Balanced events under the open calls `stack`, with the depths that belong to them. -/
inductive Nested : List Open → List Event → Prop where
  | nil {stack : List Open} : Nested stack []
  | call {stack : List Open} {path : Path} {kind : FunctionKind} {k depth : Nat}
      {inside after : List Event} {close : Event} : Closes path close →
      depth = (context stack).length + 1 → Nested (⟨path, kind⟩ :: stack) inside →
      Nested stack after → Nested stack (.called path kind k depth :: (inside ++ close :: after))

theorem follow_closes {path : Path} {close : Event} (h : Closes path close) (o : Open)
    (stack : List Open) : follow (o :: stack) close = stack := by
  cases close with
  | called => exact h.elim
  | returned => rfl
  | failed => rfl

theorem Closes.ne_called {path p : Path} {close : Event} (h : Closes path close)
    {kind : FunctionKind} {k depth : Nat} : close ≠ .called p kind k depth := by
  rintro rfl
  exact h

/-- Where events stand before the first of two pieces, they stand in it, or behind it. -/
theorem append_cons_eq {inside after before rest : List Event} {close e : Event}
    (hne : close ≠ e) (h : inside ++ close :: after = before ++ e :: rest) :
    (∃ more, inside = before ++ e :: more ∧ rest = more ++ close :: after) ∨
      ∃ more, before = inside ++ close :: more ∧ after = more ++ e :: rest := by
  obtain ⟨as, hb, ha⟩ | ⟨as, hi, hr⟩ := List.append_eq_append_iff.1 h
  · cases as with
    | nil =>
      cases ha
      exact absurd rfl hne
    | cons a as =>
      cases ha
      exact .inr ⟨as, hb, rfl⟩
  · cases as with
    | nil =>
      cases hr
      exact absurd rfl hne
    | cons a as =>
      cases hr
      exact .inl ⟨as, hi, rfl⟩

/-- Balanced events up to an end that does not belong to them can be found in one way only. -/
theorem Balanced.split_unique {a : List Event} (ha : Balanced a) :
    ∀ {a' b b' : List Event} {x x' : Event} {path path' : Path}, Balanced a' → Closes path x →
      Closes path' x' → a ++ x :: b = a' ++ x' :: b' → a = a' ∧ x = x' ∧ b = b' := by
  -- the first event tells which rule the other piece has: an end is never a beginning
  induction ha with
  | nil =>
    intro a' b b' x x' path path' ha' hx hx' h
    cases ha' with
    | nil =>
      cases h
      exact ⟨rfl, rfl, rfl⟩
    | call => exact absurd (List.cons.inj h).1 hx.ne_called
  | @call p kind k depth inside after close hclose _ _ ihInside ihAfter =>
    intro a' b b' x x' path path' ha' hx hx' h
    cases ha' with
    | nil => exact absurd (List.cons.inj h).1.symm hx'.ne_called
    | @call p' kind' k' depth' inside' after' close' hclose' hinside' hafter' =>
      simp only [List.cons_append, List.append_assoc, List.cons.injEq] at h
      obtain ⟨hcalled, hrest⟩ := h
      -- the ends of the two first calls are at one place, and what is left is split behind them
      obtain ⟨rfl, rfl, hrest'⟩ := ihInside hinside' hclose hclose' hrest
      obtain ⟨rfl, rfl, rfl⟩ := ihAfter hafter' hx hx' hrest'
      rw [hcalled]
      exact ⟨rfl, rfl, rfl⟩

theorem Balanced.closed {es : List Event} (h : Balanced es) :
    ∀ {before rest : List Event} {path : Path} {kind : FunctionKind} {k depth : Nat},
      es = before ++ .called path kind k depth :: rest →
      ∃ inside close after, rest = inside ++ close :: after ∧ Closes path close ∧
        Balanced inside := by
  induction h with
  | nil =>
    intro before rest path kind k depth h
    simp at h
  | @call p kind' k' depth' inside after close hclose hinside hafter ihInside ihAfter =>
    intro before rest path kind k depth h
    cases before with
    | nil =>
      cases h
      exact ⟨inside, close, after, rfl, hclose, hinside⟩
    | cons e before =>
      obtain ⟨more, hin, rfl⟩ | ⟨more, -, hout⟩ :=
        append_cons_eq hclose.ne_called (List.cons.inj h).2
      · obtain ⟨i, c, a, rfl, hc, hi⟩ := ihInside hin
        exact ⟨i, c, a ++ close :: after, by simp, hc, hi⟩
      · exact ihAfter hout

namespace Nested

variable {stack : List Open} {es xs ys : List Event}

theorem append (hx : Nested stack xs) (hy : Nested stack ys) : Nested stack (xs ++ ys) := by
  induction hx with
  | nil => exact hy
  | call hclose hdepth hinside _ _ ihAfter =>
    simp only [List.cons_append, List.append_assoc]
    exact .call hclose hdepth hinside (ihAfter hy)

theorem balanced (h : Nested stack es) : Balanced es := by
  induction h with
  | nil => exact .nil
  | call hclose _ _ _ ihInside ihAfter => exact .call hclose ihInside ihAfter

theorem foldl_follow (h : Nested stack es) : es.foldl follow stack = stack := by
  induction h with
  | nil => rfl
  | @call stack path kind _ _ _ _ _ hclose _ _ _ ihInside ihAfter =>
    rw [List.foldl_cons, List.foldl_append, List.foldl_cons, follow, ihInside,
      follow_closes hclose, ihAfter]

theorem depth (h : Nested stack es) :
    ∀ {before rest : List Event} {path : Path} {kind : FunctionKind} {k depth : Nat},
      es = before ++ .called path kind k depth :: rest →
      depth = (context (before.foldl follow stack)).length + 1 := by
  induction h with
  | nil =>
    intro before rest path kind k depth h
    simp at h
  | @call stack p kind' k' depth' inside after close hclose hdepth hinside _ ihInside ihAfter =>
    intro before rest path kind k depth h
    cases before with
    | nil =>
      cases h
      exact hdepth
    | cons e before =>
      obtain ⟨rfl, htail⟩ := List.cons.inj h
      obtain ⟨more, hin, -⟩ | ⟨more, rfl, hout⟩ := append_cons_eq hclose.ne_called htail
      · exact ihInside hin
      · rw [List.foldl_cons, List.foldl_append, List.foldl_cons, follow, hinside.foldl_follow,
          follow_closes hclose]
        exact ihAfter hout

theorem bracketed (h : Nested [] es) : Bracketed es where
  balanced := h.balanced
  closed := by
    intro before path kind k depth rest hes
    obtain ⟨inside, close, after, hrest, hclose, hinside⟩ := h.balanced.closed hes
    refine ⟨(inside, close, after), ⟨hrest, hclose, hinside⟩, ?_⟩
    rintro ⟨inside', close', after'⟩ ⟨hrest', hclose', hinside'⟩
    obtain ⟨rfl, rfl, rfl⟩ :=
      hinside'.split_unique hinside hclose' hclose (hrest'.symm.trans hrest)
    rfl
  depth := fun _ _ _ _ _ _ hes => h.depth hes

end Nested

end Trace

open Trace

/-! ## What a run records -/

/-- The second world has more events than the first. They nest under any open calls of which as many
as given belong to the context that is running. -/
def World.Adds (running : Nat) (w w' : World σ) : Prop :=
  ∃ es, w'.events = es.reverse ++ w.events ∧
    ∀ stack, (context stack).length = running → Nested stack es

namespace World.Adds

variable {running : Nat} {w w' w'' : World σ}

theorem of_events_eq (h : w'.events = w.events) : w.Adds running w' :=
  ⟨[], h, fun _ _ => .nil⟩

theorem refl (w : World σ) : w.Adds running w := of_events_eq rfl

theorem trans (h : w.Adds running w') (h' : w'.Adds running w'') : w.Adds running w'' := by
  obtain ⟨es, hes, hn⟩ := h
  obtain ⟨es', hes', hn'⟩ := h'
  refine ⟨es ++ es', ?_, fun stack hs => (hn stack hs).append (hn' stack hs)⟩
  rw [hes', hes, List.reverse_append, List.append_assoc]

end World.Adds

/-- How many calls are open in the context that is running, once the function is the innermost call
of a context with that many: the handler of a native function calls in contexts of its own. -/
def Function.running (f : Function) (calls : Nat) : Nat := if f.kind = .native then 0 else calls

theorem Function.context_running (f : Function) (path : Path) (stack : List Open) :
    (context (⟨path, f.kind⟩ :: stack)).length = f.running ((context stack).length + 1) := by
  unfold context Function.running
  by_cases h : f.kind = .native <;> simp [h]

theorem Failure.message_locate (f : Failure) (stack : List Path) :
    (f.locate stack).message = f.message := by
  unfold Failure.locate
  split
  · rfl
  · rfl

/-- The event at the end of a call. -/
def Event.ofEnd (path : Path) : Outcome → Event
  | .ok v => .returned path v.inspect
  | .error x => .failed path x.failure.message

namespace Machine

variable {m : Machine σ}

/-- A computation that ends in `t` leaves the active calls and adds to the trace. -/
structure Adds (s t : State σ) : Prop where
  calls : t.calls = s.calls
  world : s.world.Adds s.calls.length t.world

namespace Adds

variable {s t u : State σ}

theorem refl (s : State σ) : Adds s s := ⟨rfl, .refl _⟩

theorem trans (h : Adds s t) (h' : Adds t u) : Adds s u := by
  refine ⟨h'.calls.trans h.calls, h.world.trans ?_⟩
  rw [← h.calls]
  exact h'.world

theorem skipHandle (h : Adds s t) : Adds s t.skipHandle :=
  ⟨h.calls, h.world.trans (.of_events_eq rfl)⟩

end Adds

/-- A call that is entered and left: its beginning, what its function adds, and its end. -/
theorem Adds.of_run (hm : m.traced = true) {path : Path} {f : Function} {k : Nat} {held : Held}
    {s t : State σ} {close : Event} (hclose : Closes path close)
    (hcalls : t.calls = (m.enter path f k held s).calls)
    (hworld : (m.enter path f k held s).world.Adds (f.running (s.calls.length + 1)) t.world) :
    Adds s (m.leave f (fun _ => close) t) ∧ ∃ inside : List Event,
      (m.leave f (fun _ => close) t).world.events =
        close :: (inside.reverse ++
          .called path f.kind k (s.calls.length + 1) :: s.world.events) := by
  obtain ⟨inside, hinside, hnested⟩ := hworld
  have hentered : (m.enter path f k held s).world.events
      = .called path f.kind k (s.calls.length + 1) :: s.world.events := by
    simp [enter, note, hm]
  have hleft : (m.leave f (fun _ => close) t).world.events
      = close :: (inside.reverse ++
          .called path f.kind k (s.calls.length + 1) :: s.world.events) := by
    rw [← hentered, ← hinside]
    simp [leave, note, hm]
  have hnest : ∀ stack, (context stack).length = s.calls.length →
      Nested stack (.called path f.kind k (s.calls.length + 1) :: (inside ++ [close])) := by
    intro stack hstack
    refine .call hclose (hstack ▸ rfl) (hnested _ ?_) .nil
    rw [f.context_running, hstack]
  refine ⟨⟨congrArg List.tail hcalls, _, ?_, hnest⟩, inside, hleft⟩
  rw [hleft]
  simp

mutual

theorem Evals.adds (hm : m.traced = true) {e : Expr} {s t : State σ} {r : Outcome} :
    Evals m e s r t → Adds s t
  | .absent | .emptyBlock | .empty _ | .string | .integer | .float | .bool | .var _ | .unbound _ =>
    .refl s
  | .assign h _ => ⟨(h.adds hm).calls, (h.adds hm).world⟩
  | .assignNowhere h _ | .assignStop h | .ret h | .retStop h | .brk h | .brkStop h => h.adds hm
  | .block h | .blockStop h | .listStop h | .mapStop h | .callStop h => h.adds hm
  | .list h | .map h => (h.adds hm).skipHandle
  | .call h hc => (h.adds hm).trans (hc.adds hm).1
  | .condTrue ht ha => (ht.adds hm).trans (ha.adds hm)
  | .condFalse ht hb => (ht.adds hm).trans (hb.adds hm)
  | .condOther ht _ | .condStop ht => ht.adds hm
  | .loopAgain hb hl => (hb.adds hm).trans (hl.adds hm)
  | .loopBreak hb | .loopReturn hb | .loopFail hb => hb.adds hm

theorem InOrder.adds (hm : m.traced = true) {es : List Expr} {s t : State σ}
    {r : Except Stop (List Value)} : InOrder m es s r t → Adds s t
  | .nil => .refl s
  | .cons h hes | .later h hes => (h.adds hm).trans (hes.adds hm)
  | .stop h => h.adds hm

/-- Besides, the first event of a call is its beginning and the last one its end. -/
theorem Calls.adds (hm : m.traced = true) {path : Path} {vs : List Value} {s t : State σ}
    {r : Outcome} : Calls m path vs s r t → Adds s t ∧
      ∀ f held, m.registry.acquire path s.world.held = .ok (f, held) →
        ∃ inside : List Event,
        t.world.events = Event.ofEnd path r :: (inside.reverse ++
          .called path f.kind vs.length (s.calls.length + 1) :: s.world.events)
  | .unavailable hc => by
    refine ⟨.refl s, fun f held hf => ?_⟩
    cases hc.symm.trans hf
  | .returns (v := v) hf ha => by
    have h := ha.adds hm
    have hclose : Closes path (.returned path v.inspect) := rfl
    obtain ⟨hadds, hinside⟩ := Adds.of_run hm hclose h.1 h.2
    refine ⟨hadds, fun f' held' hf' => ?_⟩
    cases hf.symm.trans hf'
    exact hinside
  | .fails (x := x) hf ha => by
    have h := ha.adds hm
    have hclose : Closes path (.failed path x.message) := rfl
    obtain ⟨hadds, hinside⟩ := Adds.of_run hm hclose h.1 h.2
    refine ⟨hadds, fun f' held' hf' => ?_⟩
    cases hf.symm.trans hf'
    rw [Event.ofEnd, Stop.failure, Failure.message_locate]
    exact hinside

theorem Applies.adds (hm : m.traced = true) {name : String} {f : Function} {vs : List Value}
    {s t : State σ} {r : Outcome} : Applies m name f vs s r t →
      t.calls = s.calls ∧ s.world.Adds (f.running s.calls.length) t.world
  | .definedArity _ | .bodyless _ | .nativeArity _ | .unhandled _ | .imported => ⟨rfl, .refl _⟩
  | .plain _ h | .returned _ h | .broke _ h | .failed _ h => ⟨(h.adds hm).calls, (h.adds hm).world⟩
  | .replied _ hp | .refused _ hp => ⟨rfl, hp.adds hm⟩

theorem Performs.adds (hm : m.traced = true) {a : Action σ} {w w' : World σ}
    {r : Except Failure Value} : Performs m a w r w' → w.Adds 0 w'
  | .reply | .refuse => .refl w
  | .get h | .acquireRefused _ h => h.adds hm
  | .put h | .list h | .object h | .acquire _ h | .release h =>
    .trans (.of_events_eq rfl) (h.adds hm)
  | .call hc h => (hc.adds hm).1.world.trans (h.adds hm)
  | .evaluate he h => (he.adds hm).world.trans (h.adds hm)

end

/-! ## With a trace and without -/

/-- What a host asks of a machine: an expression to evaluate or a function to call. -/
inductive Task where
  | evaluate (e : Expr)
  | call (path : Path) (arguments : List Value)

/-- The answer to a task, in a context of its own. -/
def answer (m : Machine σ) (n : Nat) (w : World σ) : Task → Option (Except Failure Value × World σ)
  | .evaluate e => m.evaluate n e w
  | .call path vs => m.call n path vs w

theorem answer_tracing (m : Machine σ) (n : Nat) (w : World σ) (task : Task) :
    SameAnswer ((m.tracing true).answer n w task) ((m.tracing false).answer n w task) := by
  have hp := paired (m.tracing true) false n
  cases task with
  | evaluate e => exact sameAnswer_apart (hp.eval viewed_eq [] [] [] e) (.refl w)
  | call path vs => exact sameAnswer_apart (hp.call Eq [] [] [] path vs) (.refl w)

theorem answer_adds (hm : m.traced = true) {n : Nat} {w w' : World σ} {task : Task}
    {r : Except Failure Value} (h : m.answer n w task = some (r, w')) : w.Adds 0 w' := by
  cases task with
  | evaluate e =>
    obtain ⟨x, t, hrun, -, rfl⟩ := apart_eq_some.1 h
    exact (((sound m n).eval hrun).adds hm).world
  | call path vs =>
    obtain ⟨x, t, hrun, -, rfl⟩ := apart_eq_some.1 h
    exact (((sound m n).call hrun).adds hm).1.world

theorem eventually_apart {c : Nat → Eval σ Value} {w : World σ} {x : Outcome} {t : State σ}
    (h : ∀ᶠ n in Filter.atTop, c n (State.start w) = some (x, t)) :
    ∀ᶠ n in Filter.atTop, apart (c n) w = some (settle t.calls.reverse x, t.world) :=
  h.mono fun _ hn => apart_eq_some.2 ⟨x, t, hn, rfl, rfl⟩

/-- With enough fuel an answer and its logged copy are both there, and they are alike. -/
theorem answer_logged {n : Nat} {w w' : World σ} {task : Task} {r : Except Failure Value}
    (h : m.answer n w task = some (r, w')) :
    ∃ log, ∀ᶠ n in Filter.atTop, m.answer n w task = some (r, w') ∧
      m.logged.answer n (w.withLog []) task = some (r, w'.withLog log) := by
  cases task with
  | evaluate e =>
    obtain ⟨x, t, hrun, rfl, rfl⟩ := apart_eq_some.1 h
    have he := (sound m n).eval hrun
    obtain ⟨log, hlog⟩ := he.logged []
    exact ⟨log, (eventually_apart he.complete).and (eventually_apart hlog.complete)⟩
  | call path vs =>
    obtain ⟨x, t, hrun, rfl, rfl⟩ := apart_eq_some.1 h
    have hc := (sound m n).call hrun
    obtain ⟨log, hlog⟩ := hc.logged []
    exact ⟨log, (eventually_apart hc.complete).and (eventually_apart hlog.complete)⟩

theorem sameAnswer_some {α : Type} {x : α} {w : World σ} {q : Option (α × World σ)}
    (h : SameAnswer (some (x, w)) q) : ∃ u, q = some (x, u) ∧ w.Same u := by
  cases h with
  | @some _ p h =>
    obtain ⟨y, u⟩ := p
    obtain ⟨hy, hu⟩ := h
    cases hy
    exact ⟨u, rfl, hu⟩

/-- The host calls of a traced run are those of the run without a trace: the logs are in the host
states, on which the runs agree. -/
theorem answer_same_log {n : Nat} {w w' : World σ} {task : Task} {r : Except Failure Value}
    (h : (m.tracing true).answer n w task = some (r, w')) :
    ∃ k log u, (m.tracing true).answer k w task = some (r, w') ∧
      (m.tracing false).answer k w task = some (r, u) ∧
      (m.tracing true).logged.answer k (w.withLog []) task = some (r, w'.withLog log) ∧
      (m.tracing false).logged.answer k (w.withLog []) task = some (r, u.withLog log) := by
  obtain ⟨u, hu, -⟩ := sameAnswer_some (h ▸ answer_tracing m n w task)
  obtain ⟨log, hlog⟩ := answer_logged h
  obtain ⟨log', hlog'⟩ := answer_logged hu
  -- one amount of fuel for all four runs; the logs are read off the host states of the logged ones
  obtain ⟨k, ⟨hk, hk₁⟩, hk', hk₁'⟩ := (hlog.and hlog').exists
  have hsame : log' = log := by
    have hrel := answer_tracing m.logged k (w.withLog []) task
    change SameAnswer ((m.tracing true).logged.answer k (w.withLog []) task)
      ((m.tracing false).logged.answer k (w.withLog []) task) at hrel
    rw [hk₁, hk₁'] at hrel
    obtain ⟨v, hv, hw⟩ := sameAnswer_some hrel
    cases hv
    exact congrArg Prod.snd hw.host
  subst hsame
  exact ⟨k, log', u, hk, hk', hk₁, hk₁'⟩

/-- Whether calls are recorded makes no difference to an answer, to the world it leaves or to the
host calls on the way. What a run records is bracketed. A call records its beginning first and its
end last, and if its function cannot be taken into use it records nothing. -/
theorem tracing_transparent_bracketed (m : Machine σ) :
    (∀ n w task,
      SameAnswer ((m.tracing true).answer n w task) ((m.tracing false).answer n w task)) ∧
    (∀ w task r w', (∃ n, (m.tracing true).answer n w task = some (r, w')) →
      (∃ n log u, (m.tracing true).answer n w task = some (r, w') ∧
        (m.tracing false).answer n w task = some (r, u) ∧
        (m.tracing true).logged.answer n (w.withLog []) task = some (r, w'.withLog log) ∧
        (m.tracing false).logged.answer n (w.withLog []) task = some (r, u.withLog log)) ∧
      ∃ es, w'.events = es.reverse ++ w.events ∧ Bracketed es) ∧
    ∀ n path vs s r t, (m.tracing true).callPath n path vs s = some (r, t) →
      (∀ c, m.registry.acquire path s.world.held = .error c → t = s) ∧
      ∀ f held, m.registry.acquire path s.world.held = .ok (f, held) → ∃ inside : List Event,
        t.world.events = Event.ofEnd path r :: (inside.reverse ++
          .called path f.kind vs.length (s.calls.length + 1) :: s.world.events) := by
  refine ⟨answer_tracing m, ?_, ?_⟩
  · rintro w task r w' ⟨n, h⟩
    obtain ⟨es, hes, hnested⟩ := answer_adds rfl h
    exact ⟨answer_same_log h, es, hes, (hnested [] rfl).bracketed⟩
  · intro n path vs s r t h
    have hc := (sound _ n).call h
    refine ⟨fun c herror => ?_, (hc.adds rfl).2⟩
    cases hc with
    | unavailable => rfl
    | returns hf => cases herror.symm.trans hf
    | fails hf => cases herror.symm.trans hf

/-! An instance: `m.f` calls a handler, which calls `m.g` in a context of its own, and there the same
handler is refused. -/

def reentrant : Machine Unit where
  registry := (Registry.empty.register ((Library.empty "host").add "back" (.native 0 0 true))).register
    (((Library.empty "m").add "f" (.defined [] (some [.call ⟨"host", "back"⟩ []]))).add "g"
      (.defined [] (some [.call ⟨"host", "back"⟩ []])))
  handlers := fun _ _ => .call ⟨"m", "g"⟩ [] fun _ => .reply (.integer 7)
  traced := false

theorem tracing_transparent_bracketed_reentrant :
    let f : Path := ⟨"m", "f"⟩
    let g : Path := ⟨"m", "g"⟩
    let back : Path := ⟨"host", "back"⟩
    let es : List Event := [.called f .defined 0 1, .called back .native 0 2, .called g .defined 0 1,
      .failed g "function 'host.back' is already executing", .returned back "7", .returned f "7"]
    ∃ w' log u n, w'.events = es.reverse ∧ Bracketed es ∧
      (reentrant.tracing true).answer n (World.start ()) (.call f []) = some (.ok (.integer 7), w') ∧
      (reentrant.tracing false).answer n (World.start ()) (.call f []) = some (.ok (.integer 7), u) ∧
      (reentrant.tracing true).logged.answer n ((World.start ()).withLog []) (.call f []) =
        some (.ok (.integer 7), w'.withLog log) ∧
      (reentrant.tracing false).logged.answer n ((World.start ()).withLog []) (.call f []) =
        some (.ok (.integer 7), u.withLog log) := by
  intro f g back es
  obtain ⟨⟨n, log, u, hn, hu, hlog, hlog'⟩, es', hes, hb⟩ :=
    (tracing_transparent_bracketed reentrant).2.1 (World.start ()) (.call f []) (.ok (.integer 7))
      ⟨(), [], 0, es.reverse⟩ ⟨20, rfl⟩
  have hes' : es = es' := by simpa [World.start] using congrArg List.reverse hes
  exact ⟨_, log, u, n, rfl, hes' ▸ hb, hn, hu, hlog, hlog'⟩

end Machine

end Arbor
