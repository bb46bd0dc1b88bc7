import Arbor.Proofs.Eval.Agreement
import Arbor.Proofs.Eval.Categories
import Arbor.Proofs.Eval.Moments

/-!
Failures on their way out.

A failure that begins somewhere in a run gets layers as it passes calls, handlers and the end of an
evaluation; nothing else happens to it, so its category stays. A handler lies between two
evaluations, and what it does with the failure of the inner one is its own affair: `Relays` are the
steps inwards at which it is handed on. From the failure at the end of any number of such steps one
gets the failure of the whole (`relayed_fails`), however many handlers call each other in between.
-/

set_option autoImplicit false

namespace Arbor

variable {σ : Type}

/-! ## Chains inside longer chains -/

/-- The second failure, perhaps with more layers around it. -/
def Failure.Carries (y x : Failure) : Prop := ∃ ls, y.layers = ls ++ x.layers ∧ y.cause = x.cause

namespace Failure

variable {x y z : Failure}

theorem Carries.refl (x : Failure) : x.Carries x := ⟨[], rfl, rfl⟩

theorem Carries.trans (h : z.Carries y) (h' : y.Carries x) : z.Carries x := by
  obtain ⟨ls, hls, hc⟩ := h
  obtain ⟨ls', hls', hc'⟩ := h'
  exact ⟨ls ++ ls', by rw [hls, hls', List.append_assoc], hc.trans hc'⟩

theorem carries_wrap (x : Failure) (l : Layer) : (x.wrap l).Carries x := ⟨[l], rfl, rfl⟩

theorem carries_locate (x : Failure) (stack : List Path) : (x.locate stack).Carries x := by
  unfold locate
  split
  · exact .refl x
  · exact carries_wrap x _

theorem Carries.passedHandler (h : y.Carries x) (hx : x.PassedHandler) : y.PassedHandler := by
  obtain ⟨ls, hls, -⟩ := h
  obtain ⟨name, hname⟩ := hx
  exact ⟨name, hls ▸ List.mem_append_right ls hname⟩

/-- More layers may give a failure its category, and leave one that it has. -/
theorem Carries.category (h : y.Carries x) (hy : y.category ≠ "") :
    y.category = if x.category = "" then "NativeError" else x.category := by
  have hcause : y.cause = x.cause := h.choose_spec.2
  cases hx : x.cause.bind Cause.category? with
  | some k =>
    rw [if_neg (category_ne_of_cause hx), category_of_cause hx]
    exact category_of_cause (hcause ▸ hx)
  | none =>
    have hy' : y.cause.bind Cause.category? = none := hcause ▸ hx
    have hpassed : y.PassedHandler := by
      by_contra hno
      exact hy (category_of_plain hy' hno)
    rw [category_of_passed hy' hpassed]
    by_cases hp : x.PassedHandler
    · rw [category_of_passed hx hp]
      rfl
    · rw [category_of_plain hx hp]
      rfl

theorem Carries.category_ne (h : y.Carries x) (hx : x.category ≠ "") : y.category ≠ "" := by
  have hcause : y.cause = x.cause := h.choose_spec.2
  cases hk : x.cause.bind Cause.category? with
  | some k => exact category_ne_of_cause (hcause ▸ hk)
  | none =>
    have hp : x.PassedHandler := by
      by_contra hno
      exact hx (category_of_plain hk hno)
    rw [category_of_passed (hcause ▸ hk) (h.passedHandler hp)]
    decide

end Failure

namespace Machine

variable {m : Machine σ}

/-! ## Every failure of a tree, a call or a function has a category -/

theorem category_raise {c : Cause} {k : String} (h : c.category? = some k) :
    (Failure.ofCause c).category ≠ "" :=
  Failure.category_ne_of_cause h

theorem category_acquire {r : Registry} {path : Path} {held : Held} {c : Cause}
    (h : r.acquire path held = .error c) : c.category? ≠ none := by
  obtain rfl | rfl | rfl := Registry.acquire_error h <;> nofun

mutual

theorem Evals.category_ne {e : Expr} {s t : State σ} {r : Outcome} :
    Evals m e s r t → ∀ x, r = .error (.fail x) → x.category ≠ ""
  | .absent, x, hx | .emptyBlock, x, hx | .string, x, hx | .integer, x, hx | .float, x, hx
  | .bool, x, hx | .var _, x, hx | .assign _ _, x, hx | .block _, x, hx | .list _, x, hx
  | .map _, x, hx | .loopBreak _, x, hx | .loopReturn _, x, hx | .ret _, x, hx | .brk _, x, hx => by
    cases hx
  | .empty _, x, hx | .unbound _, x, hx | .assignNowhere _ _, x, hx | .condOther _ _, x, hx => by
    cases hx
    exact category_raise rfl
  | .assignStop h, x, hx | .retStop h, x, hx | .brkStop h, x, hx => h.category_ne x hx
  | .condStop h, x, hx | .condTrue _ h, x, hx | .condFalse _ h, x, hx => h.category_ne x hx
  | .loopAgain _ h, x, hx | .loopFail h, x, hx => h.category_ne x hx
  | .blockStop h, x, hx | .listStop h, x, hx | .mapStop h, x, hx | .callStop h, x, hx =>
    h.category_ne x (by cases hx; rfl)
  | .call _ h, x, hx => h.category_ne x hx

theorem InOrder.category_ne {es : List Expr} {s t : State σ} {r : Except Stop (List Value)} :
    InOrder m es s r t → ∀ x, r = .error (.fail x) → x.category ≠ ""
  | .nil, x, hx | .cons _ _, x, hx => by cases hx
  | .later _ h, x, hx => h.category_ne x hx
  | .stop h, x, hx => h.category_ne x (by cases hx; rfl)

theorem Calls.category_ne {path : Path} {vs : List Value} {s t : State σ} {r : Outcome} :
    Calls m path vs s r t → ∀ x, r = .error (.fail x) → x.category ≠ ""
  | .unavailable hc, x, hx => by
    cases hx
    obtain ⟨k, hk⟩ := Option.ne_none_iff_exists'.1 (category_acquire hc)
    exact (Failure.carries_locate _ _).category_ne (category_raise hk)
  | .returns _ _, x, hx => by cases hx
  | .fails _ h, x, hx => by
    have hinner := h.category_ne _ rfl
    cases hx
    exact (Failure.carries_locate _ _).category_ne hinner

theorem Applies.category_ne {name : String} {f : Function} {vs : List Value} {s t : State σ}
    {r : Outcome} : Applies m name f vs s r t → ∀ x, r = .error (.fail x) → x.category ≠ ""
  | .bodyless _, x, hx | .plain _ _, x, hx | .returned _ _, x, hx | .replied _ _, x, hx => by cases hx
  | .definedArity _, x, hx | .broke _ _, x, hx | .nativeArity _, x, hx | .unhandled _, x, hx
  | .imported, x, hx => by
    cases hx
    exact category_raise rfl
  | .failed _ h, x, hx => h.category_ne x (by cases hx; rfl)
  | .refused _ _, x, hx => by
    cases hx
    rw [Failure.category_native]
    split
    · decide
    · assumption

end

end Machine

/-! ## Moments that end with a failure -/

namespace Moment

/-- What begins here ends with the failure. -/
def Fails (m : Machine σ) : Moment σ → Failure → Prop
  | expr e s, x => ∃ t, Machine.Evals m e s (.error (.fail x)) t
  | order es s, x => ∃ t, Machine.InOrder m es s (.error (.fail x)) t
  | call path vs s, x => ∃ t, Machine.Calls m path vs s (.error (.fail x)) t
  | run name f vs s, x => ∃ t, Machine.Applies m name f vs s (.error (.fail x)) t
  | handler id vs w, x => ∃ w', Machine.Performs m (m.handlers id vs) w (.error x) w'
  | act a w, x => ∃ w', Machine.Performs m a w (.error x) w'

/-- A handler is at work. -/
def Hosted : Moment σ → Prop
  | handler .. | act .. => True
  | _ => False

theorem category_ne_of_fails {m : Machine σ} {a : Moment σ} {x : Failure} (ha : ¬ a.Hosted)
    (h : a.Fails m x) : x.category ≠ "" := by
  cases a with
  | expr e s =>
    obtain ⟨t, h⟩ := h
    exact h.category_ne x rfl
  | order es s =>
    obtain ⟨t, h⟩ := h
    exact h.category_ne x rfl
  | call path vs s =>
    obtain ⟨t, h⟩ := h
    exact h.category_ne x rfl
  | run name f vs s =>
    obtain ⟨t, h⟩ := h
    exact h.category_ne x rfl
  | handler id vs w => exact absurd trivial ha
  | act a w => exact absurd trivial ha

end Moment

namespace Machine

/-- The step from the first moment to the second one is not made by a handler that calls or evaluates,
or the handler returns, in as many layers as it likes, whatever failure it gets for it. -/
inductive Relays (m : Machine σ) : Moment σ → Moment σ → Prop where
  | within {a b : Moment σ} : Leads m a b → (a.Hosted → b.Hosted) → Relays m a b
  | call {path : Path} {vs : List Value} {next : Except Failure Value → Action σ} {w : World σ} :
      (∀ x t, Calls m path vs (State.start w) (.error (.fail x)) t →
        ∃ y, y.Carries (x.locate t.calls.reverse) ∧
          (Moment.act (next (.error (x.locate t.calls.reverse))) t.world).Fails m y) →
      Relays m (.act (.call path vs next) w) (.call path vs (State.start w))
  | evaluate {e : Expr} {next : Except Failure Value → Action σ} {w : World σ} :
      (∀ x t, Evals m e (State.start w) (.error (.fail x)) t →
        ∃ y, y.Carries (x.locate t.calls.reverse) ∧
          (Moment.act (next (.error (x.locate t.calls.reverse))) t.world).Fails m y) →
      Relays m (.act (.evaluate e next) w) (.expr e (State.start w))

variable {m : Machine σ} {a b : Moment σ} {x : Failure}

/-- What comes next ends what it is part of, if it fails. -/
theorem fails_of_leads (hl : Leads m a b) (hh : a.Hosted → b.Hosted) (hb : b.Fails m x) :
    ∃ y, a.Fails m y ∧ y.Carries x := by
  have same (h : a.Fails m x) : ∃ y, a.Fails m y ∧ y.Carries x := ⟨x, h, .refl x⟩
  cases hl with
  | assign => exact same (Exists.imp (fun _ => .assignStop) hb)
  | block => exact same (Exists.imp (fun _ => .blockStop) hb)
  | list => exact same (Exists.imp (fun _ => .listStop) hb)
  | map => exact same (Exists.imp (fun _ => .mapStop) hb)
  | arguments => exact same (Exists.imp (fun _ => .callStop) hb)
  | call hvs => exact same (Exists.imp (fun _ => .call hvs) hb)
  | test => exact same (Exists.imp (fun _ => .condStop) hb)
  | whenTrue ht => exact same (Exists.imp (fun _ => .condTrue ht) hb)
  | whenFalse ht => exact same (Exists.imp (fun _ => .condFalse ht) hb)
  | body => exact same (Exists.imp (fun _ => .loopFail) hb)
  | again hv => exact same (Exists.imp (fun _ => .loopAgain hv) hb)
  | ret => exact same (Exists.imp (fun _ => .retStop) hb)
  | brk => exact same (Exists.imp (fun _ => .brkStop) hb)
  | head => exact same (Exists.imp (fun _ => .stop) hb)
  | tail hv => exact same (Exists.imp (fun _ => .later hv) hb)
  | enter hf =>
    obtain ⟨t, h⟩ := hb
    exact ⟨_, ⟨_, .fails hf h⟩, Failure.carries_locate _ _⟩
  | defined harity =>
    obtain ⟨t, h⟩ := hb
    exact same ⟨_, .failed harity h⟩
  | native harity =>
    obtain ⟨w, h⟩ := hb
    exact ⟨_, ⟨_, .refused harity h⟩, Failure.carries_wrap _ _⟩
  | handler => exact same hb
  | get => exact same (Exists.imp (fun _ => .get) hb)
  | put => exact same (Exists.imp (fun _ => .put) hb)
  | makeList => exact same (Exists.imp (fun _ => .list) hb)
  | makeObject => exact same (Exists.imp (fun _ => .object) hb)
  | callBack | evaluate => exact (hh trivial).elim
  | calledBack hc => exact same (Exists.imp (fun _ => .call hc) hb)
  | evaluated he => exact same (Exists.imp (fun _ => .evaluate he) hb)
  | acquire hf => exact same (Exists.imp (fun _ => .acquire hf) hb)
  | acquireRefused hf => exact same (Exists.imp (fun _ => .acquireRefused hf) hb)
  | release => exact same (Exists.imp (fun _ => .release) hb)

theorem relays_fails (hr : Relays m a b) (hb : b.Fails m x) : ∃ y, a.Fails m y ∧ y.Carries x := by
  cases hr with
  | within hl hh => exact fails_of_leads hl hh hb
  | call hnext =>
    obtain ⟨t, hc⟩ := hb
    obtain ⟨y, hy, w', hp⟩ := hnext x t hc
    exact ⟨y, ⟨w', .call hc hp⟩, hy.trans (Failure.carries_locate _ _)⟩
  | evaluate hnext =>
    obtain ⟨t, he⟩ := hb
    obtain ⟨y, hy, w', hp⟩ := hnext x t he
    exact ⟨y, ⟨w', .evaluate he hp⟩, hy.trans (Failure.carries_locate _ _)⟩

/-- The failure at the end of any number of steps inwards comes out in a failure of the whole. -/
theorem relayed_fails (hr : Relation.ReflTransGen (Relays m) a b) (hb : b.Fails m x) :
    ∃ y, a.Fails m y ∧ y.Carries x := by
  induction hr using Relation.ReflTransGen.head_induction_on with
  | refl => exact ⟨x, hb, .refl x⟩
  | head hstep _ ih =>
    obtain ⟨y, hy, hyx⟩ := ih
    obtain ⟨z, hz, hzy⟩ := relays_fails hstep hy
    exact ⟨z, hz, hzy.trans hyx⟩

/-! ## The failures of evaluations and calls -/

theorem evaluate_of_fails {e : Expr} {w : World σ} (h : (Moment.expr e (State.start w)).Fails m x) :
    ∃ n y w', m.evaluate n e w = some (.error y, w') ∧ y.Carries x := by
  obtain ⟨t, h⟩ := h
  obtain ⟨n, hn⟩ := eval_iff.2 h
  exact ⟨n, _, _, apart_eq_some.2 ⟨_, t, hn, rfl, rfl⟩, Failure.carries_locate _ _⟩

theorem call_of_fails {path : Path} {vs : List Value} {w : World σ}
    (h : (Moment.call path vs (State.start w)).Fails m x) :
    ∃ n y w', m.call n path vs w = some (.error y, w') ∧ y.Carries x := by
  obtain ⟨t, h⟩ := h
  obtain ⟨n, hn⟩ := callPath_iff.2 h
  exact ⟨n, _, _, apart_eq_some.2 ⟨_, t, hn, rfl, rfl⟩, Failure.carries_locate _ _⟩

/-- The category that a failure has on the outside, where handlers that return what they get are all
that is between. -/
theorem category_of_relayed (hr : Relation.ReflTransGen (Relays m) a b) (ha : ¬ a.Hosted)
    (hb : b.Fails m x) : ∃ y, a.Fails m y ∧
      ∀ z : Failure, z.Carries y →
        z.category = if x.category = "" then "NativeError" else x.category := by
  obtain ⟨y, hy, hyx⟩ := relayed_fails hr hb
  refine ⟨y, hy, fun z hzy => ?_⟩
  have hne : z.category ≠ "" := hzy.category_ne (Moment.category_ne_of_fails ha hy)
  exact (hzy.trans hyx).category hne

/-- The cause alone decides the category of a failure; if it has none, it matters only whether a
handler was passed. So a layer that records calls never changes a category, one of a handler gives one
only where there was none, and a failure that the handlers on its way out return keeps its category,
through any number of handlers that call or evaluate. -/
theorem category_kept (m : Machine σ) (f : Failure) :
    ((∀ k, f.cause.bind Cause.category? = some k → f.category = k) ∧
      (f.cause.bind Cause.category? = none → f.PassedHandler → f.category = "NativeError") ∧
      (f.cause.bind Cause.category? = none → ¬ f.PassedHandler → f.category = "")) ∧
    (∀ stack, (f.wrap (.located stack)).category = f.category) ∧
    (∀ name, (f.wrap (.native name)).category =
      if f.category = "" then "NativeError" else f.category) ∧
    ∀ b x, b.Fails m x →
      (¬ b.Hosted → x.category ≠ "") ∧
      (∀ e w, Relation.ReflTransGen (Relays m) (.expr e (State.start w)) b →
        ∃ n y w', m.evaluate n e w = some (.error y, w') ∧
          y.category = if x.category = "" then "NativeError" else x.category) ∧
      ∀ path vs w, Relation.ReflTransGen (Relays m) (.call path vs (State.start w)) b →
        ∃ n y w', m.call n path vs w = some (.error y, w') ∧
          y.category = if x.category = "" then "NativeError" else x.category := by
  refine ⟨⟨fun k => Failure.category_of_cause, Failure.category_of_passed, Failure.category_of_plain⟩,
    Failure.category_located f, Failure.category_native f, fun b x hb => ⟨fun hnot => ?_, ?_, ?_⟩⟩
  · exact Moment.category_ne_of_fails hnot hb
  · intro e w hr
    obtain ⟨y, hy, hcategory⟩ := category_of_relayed hr id hb
    obtain ⟨n, z, w', hrun, hz⟩ := evaluate_of_fails hy
    exact ⟨n, z, w', hrun, hcategory z hz⟩
  · intro path vs w hr
    obtain ⟨y, hy, hcategory⟩ := category_of_relayed hr id hb
    obtain ⟨n, z, w', hrun, hz⟩ := call_of_fails hy
    exact ⟨n, z, w', hrun, hcategory z hz⟩

/-! An instance with two handlers: `host.outer` calls `m.f`, which calls `host.inner`, which calls
`m.g`, which reads a variable that is not there. -/

/-- Returns whatever the call of a function comes to. -/
def passing (target : Path) : Action Unit :=
  .call target [] fun
    | .ok v => .reply v
    | .error x => .refuse x

def passingTwice : Machine Unit where
  registry := (Registry.empty.register
      (((Library.empty "host").add "outer" (.native 0 0 true)).add "inner" (.native 1 0 true))).register
    (Library.ofModule "m" (some ⟨[.define ⟨"f", [], some [.call ⟨"host", "inner"⟩ []]⟩,
      .define ⟨"g", [], some [.var "ghost"]⟩]⟩))
  handlers := fun id _ => if id = 0 then passing ⟨"m", "f"⟩ else passing ⟨"m", "g"⟩
  traced := false

theorem passing_relays {target : Path} {w : World Unit} : Relays passingTwice
    (.act (passing target) w) (.call target [] (State.start w)) :=
  .call fun _ _ _ => ⟨_, .refl _, _, .refuse⟩

/-- From a call of a handler that passes on a call to that call. -/
theorem passingTwice_native (path target : Path) (s : State Unit) {id : NativeId} {held : Held}
    (hf : passingTwice.registry.acquire path s.world.held = .ok (.native id 0 true, held))
    (ht : passingTwice.handlers id [] = passing target) :
    ∃ w, w.held = held ∧ Relation.ReflTransGen (Relays passingTwice)
      (.expr (.call path []) s) (.call target [] (State.start w)) := by
  refine ⟨_, enter_held passingTwice (.native id 0 true) s path 0 held, ?_⟩
  refine .head (.within (.call .nil) nofun) (.head (.within (.enter hf) nofun) ?_)
  refine .head (.within (.native rfl) nofun) (.head (.within .handler fun _ => trivial) ?_)
  rw [ht]
  exact .single passing_relays

/-- From a call of a function of one expression to that expression. -/
theorem passingTwice_defined (path : Path) (s : State Unit) {e : Expr}
    (hf : passingTwice.registry.acquire path s.world.held
      = .ok (.defined [] (some [e]), s.world.held)) :
    ∃ t, t.world.held = s.world.held ∧ t.scopes = s.scopes.push (Frame.seed [] [] false) ∧
      Relation.ReflTransGen (Relays passingTwice) (.call path [] s) (.expr e t) := by
  let entered := passingTwice.enter path (.defined [] (some [e])) 0 s.world.held s
  refine ⟨entered.push (Frame.seed [] [] false), enter_held .., rfl, ?_⟩
  refine .head (.within (.enter hf) nofun) (.head (.within (.defined rfl) nofun) ?_)
  exact .single (.within .head nofun)

theorem category_kept_nested :
    let e : Expr := .call ⟨"host", "outer"⟩ []
    ∃ s, Relation.ReflTransGen (Relays passingTwice) (.expr e (State.start (World.start ())))
        (.expr (.var "ghost") s) ∧
      (Moment.expr (.var "ghost") s).Fails passingTwice (.ofCause (.unboundVariable "ghost")) ∧
      ∃ n y w', passingTwice.evaluate n e (World.start ()) = some (.error y, w') ∧
        y.category = "UnboundVariable" := by
  intro e
  obtain ⟨w, hw, houter⟩ :=
    passingTwice_native ⟨"host", "outer"⟩ ⟨"m", "f"⟩ (State.start (World.start ())) rfl rfl
  obtain ⟨s, hs, -, hcall⟩ := passingTwice_defined ⟨"m", "f"⟩ (State.start w) rfl
  have hheld : s.world.held = [0] := hs.trans hw
  have hfree : passingTwice.registry.acquire ⟨"host", "inner"⟩ s.world.held
      = .ok (.native 1 0 true, [1, 0]) := by
    rw [hheld]
    rfl
  obtain ⟨w', -, hinner⟩ := passingTwice_native ⟨"host", "inner"⟩ ⟨"m", "g"⟩ s hfree rfl
  obtain ⟨t, -, hscopes, hread⟩ := passingTwice_defined ⟨"m", "g"⟩ (State.start w') rfl
  have hpath := houter.trans (hcall.trans (hinner.trans hread))
  have hfails : (Moment.expr (.var "ghost") t).Fails passingTwice
      (.ofCause (.unboundVariable "ghost")) :=
    ⟨t, .unbound (by rw [hscopes]; rfl)⟩
  refine ⟨t, hpath, hfails, ?_⟩
  have hkept := category_kept passingTwice (.ofCause (.unboundVariable "ghost"))
  exact (hkept.2.2.2 _ _ hfails).2.1 e _ hpath

end Machine

end Arbor
