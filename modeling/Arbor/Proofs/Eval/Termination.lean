import Arbor.Proofs.Eval.BreakClosed
import Mathlib.Data.Fintype.EquivFin
import Mathlib.Data.Set.Finite.List
import Mathlib.Order.WellFounded

/-!
Evaluations that end.

A function is bound to end where neither it nor any function it can come to has a loop, and where it
cannot come to itself. The graph of calls is read off the bodies: paths are resolved when a call is
made, so that an edge leads to every path that a body mentions, whatever is there. Only paths that
resolve have edges, and there are finitely many, so that a graph without a cycle is well-founded
(`acc_of_acyclic`). Evaluation then goes down in this graph, and in one body from an expression to
its parts.

Handlers may call back, and what they do is up to them: they are expected to end (`HandlersEnd`).
-/

set_option autoImplicit false

namespace Arbor

open Relation (TransGen ReflTransGen)

variable {σ : Type}

/-! ## Loops and calls in a tree -/

def Expr.HasLoop (e : Expr) : Prop := ∃ body, Occurs (fun _ => true) (.loop body) e

/-- There is a call of that path in the expression. -/
def Expr.Mentions (e : Expr) (path : Path) : Prop :=
  ∃ arguments, Occurs (fun _ => true) (.call path arguments) e

theorem Expr.HasLoop.inside {e part : Expr} (h : part.HasLoop) (hmem : part ∈ e.parts) :
    e.HasLoop := by
  obtain ⟨body, hbody⟩ := h
  exact ⟨body, .inside rfl hmem hbody⟩

theorem Expr.Mentions.inside {e part : Expr} {path : Path} (h : part.Mentions path)
    (hmem : part ∈ e.parts) : e.Mentions path := by
  obtain ⟨arguments, hcall⟩ := h
  exact ⟨arguments, .inside rfl hmem hcall⟩

/-! ## The graph of calls -/

/-- The function defined at the first path has a call of the second one in its body. -/
def Registry.Edge (r : Registry) (path callee : Path) : Prop :=
  ∃ ps es, r.resolve path = .ok (.defined ps (some es)) ∧ ∃ e ∈ es, e.Mentions callee

/-- The expression has a call of the path, or of a function that can come to the path. -/
def Registry.Reach (r : Registry) (e : Expr) (path : Path) : Prop :=
  ∃ first, e.Mentions first ∧ ReflTransGen r.Edge first path

theorem Registry.Reach.step {r : Registry} {e : Expr} {path callee : Path} (h : r.Reach e path)
    (hedge : r.Edge path callee) : r.Reach e callee := by
  obtain ⟨first, hfirst, hpath⟩ := h
  exact ⟨first, hfirst, hpath.tail hedge⟩

/-- The paths at which there is something. -/
def Registry.paths (r : Registry) : List Path :=
  r.modules.flatMap fun p => p.2.functions.map fun q => ⟨p.1, q.1⟩

theorem Registry.mem_paths {r : Registry} {path : Path} {f : Function}
    (h : r.resolve path = .ok f) : path ∈ r.paths := by
  obtain ⟨l, hl, hf⟩ := Registry.resolve_eq_ok_iff.1 h
  refine List.mem_flatMap.2 ⟨_, Table.mem_of_find? hl, ?_⟩
  exact List.mem_map.2 ⟨_, Table.mem_of_find? hf, rfl⟩

theorem Registry.acc_of_nothing {r : Registry} {path : Path} (h : path ∉ r.paths) :
    Acc (flip r.Edge) path := by
  refine ⟨_, fun callee hedge => ?_⟩
  obtain ⟨ps, es, hresolve, -⟩ := hedge
  exact absurd (mem_paths hresolve) h

/-- Finitely many paths have edges, and without a cycle a way along edges comes to an end. -/
theorem Registry.acc_of_acyclic {r : Registry} {e : Expr}
    (h : ∀ path, r.Reach e path → ¬ TransGen r.Edge path path) {path : Path}
    (hpath : r.Reach e path) : Acc (flip r.Edge) path := by
  let Inner := { p : Path // p ∈ r.paths ∧ r.Reach e p }
  have hfinite : Finite Inner := ((List.finite_toSet r.paths).subset fun p hp => hp.1).to_subtype
  let later : Inner → Inner → Prop := fun p q => TransGen r.Edge q.1 p.1
  have htrans : IsTrans Inner later := ⟨fun _ _ _ hpq hqr => hqr.trans hpq⟩
  have hirrefl : Std.Irrefl later := ⟨fun p hp => h p.1 p.2.2 hp⟩
  have hwf : WellFounded later := Finite.wellFounded_of_trans_of_irrefl later
  have hinner : ∀ p : Inner, Acc (flip r.Edge) p.1 := by
    intro p
    induction p using hwf.induction with
    | _ p ih =>
      refine ⟨_, fun callee hedge => ?_⟩
      by_cases hmem : callee ∈ r.paths
      · exact ih ⟨callee, hmem, p.2.2.step hedge⟩ (.single hedge)
      · exact acc_of_nothing hmem
  by_cases hmem : path ∈ r.paths
  · exact hinner ⟨path, hmem, hpath⟩
  · exact acc_of_nothing hmem

namespace Machine

variable {m : Machine σ}

/-! ## Runs that end -/

/-- A handler that is about to run comes to an end. -/
def HandlersEnd (m : Machine σ) : Moment σ → Prop
  | .handler id vs w => ∃ r w', Performs m (m.handlers id vs) w r w'
  | _ => True

/-- Whatever state the expression is evaluated in, if the handlers end then it does. -/
def Halts (m : Machine σ) (e : Expr) : Prop :=
  ∀ s, Throughout m (HandlersEnd m) (.expr e s) → ∃ r t, Evals m e s r t

theorem order_halts : ∀ {es : List Expr}, (∀ e ∈ es, Halts m e) →
    ∀ s, Throughout m (HandlersEnd m) (.order es s) → ∃ r t, InOrder m es s r t
  | [], _, s, _ => ⟨_, s, .nil⟩
  | e :: es, h, s, hs => by
    obtain ⟨he, hes⟩ := List.forall_mem_cons.1 h
    obtain ⟨r, t, hr⟩ := he s (hs.step .head)
    cases r with
    | error x => exact ⟨_, t, .stop hr⟩
    | ok v =>
      obtain ⟨r, u, hrest⟩ := order_halts hes t (hs.step (.tail hr))
      cases r with
      | ok vs => exact ⟨_, u, .cons hr hrest⟩
      | error x => exact ⟨_, u, .later hr hrest⟩

theorem run_halts {name : String} {f : Function} {vs : List Value} {s : State σ}
    (hbody : ∀ ps es, f = .defined ps (some es) → ∀ e ∈ es, Halts m e)
    (hs : Throughout m (HandlersEnd m) (.run name f vs s)) : ∃ r t, Applies m name f vs s r t := by
  cases f with
  | imported target => exact ⟨_, s, .imported⟩
  | native id arity handled =>
    by_cases ha : vs.length = arity
    · cases handled with
      | false => exact ⟨_, s, .unhandled ha⟩
      | true =>
        obtain ⟨r, w, hr⟩ := (hs.step (.native ha)).here
        cases r with
        | ok v => exact ⟨_, _, .replied ha hr⟩
        | error x => exact ⟨_, _, .refused ha hr⟩
    · exact ⟨_, s, .nativeArity ha⟩
  | defined ps body =>
    by_cases ha : vs.length = ps.length
    · cases body with
      | none => exact ⟨_, s, .bodyless ha⟩
      | some es =>
        obtain ⟨r, t, hr⟩ := order_halts (hbody ps es rfl) _ (hs.step (.defined ha))
        match r, hr with
        | .ok ws, hr => exact ⟨_, _, .plain ha hr⟩
        | .error (.ret v), hr => exact ⟨_, _, .returned ha hr⟩
        | .error (.brk v), hr => exact ⟨_, _, .broke ha hr⟩
        | .error (.fail x), hr => exact ⟨_, _, .failed ha hr⟩
    · exact ⟨_, s, .definedArity ha⟩

theorem call_halts {path : Path}
    (hbody : ∀ ps es, m.registry.resolve path = .ok (.defined ps (some es)) → ∀ e ∈ es, Halts m e)
    (vs : List Value) (s : State σ) (hs : Throughout m (HandlersEnd m) (.call path vs s)) :
    ∃ r t, Calls m path vs s r t := by
  cases hf : m.registry.acquire path s.world.held with
  | error c => exact ⟨_, s, .unavailable hf⟩
  | ok p =>
    obtain ⟨f, held⟩ := p
    have hresolve := Registry.resolve_of_acquire hf
    obtain ⟨r, t, hr⟩ := run_halts (fun ps es hdef => hbody ps es (hdef ▸ hresolve))
      (hs.step (.enter hf))
    obtain ⟨v, rfl⟩ | ⟨x, rfl⟩ := hr.ends
    · exact ⟨_, _, .returns hf hr⟩
    · exact ⟨_, _, .fails hf hr⟩

theorem halts_of_calls (e : Expr) (hloop : ¬ e.HasLoop)
    (hcalls : ∀ path, e.Mentions path → ∀ vs s, Throughout m (HandlersEnd m) (.call path vs s) →
      ∃ r t, Calls m path vs s r t) : Halts m e := by
  induction e using Expr.induction_parts with
  | h e ih =>
    have hparts : ∀ part ∈ e.parts, Halts m part := fun part hmem =>
      ih part hmem (fun hp => hloop (hp.inside hmem)) fun path hp => hcalls path (hp.inside hmem)
    intro s hs
    cases e with
    | absent => exact ⟨_, s, .absent⟩
    | empty type =>
      by_cases hb : type = .block
      · subst hb
        exact ⟨_, s, .emptyBlock⟩
      · exact ⟨_, s, .empty hb⟩
    | string x => exact ⟨_, s, .string⟩
    | integer x => exact ⟨_, s, .integer⟩
    | float x => exact ⟨_, s, .float⟩
    | bool x => exact ⟨_, s, .bool⟩
    | var name =>
      cases hl : s.scopes.lookup? name with
      | some v => exact ⟨_, s, .var hl⟩
      | none => exact ⟨_, s, .unbound hl⟩
    | assign name e =>
      obtain ⟨r, t, hr⟩ := hparts e (List.mem_singleton_self _) s (hs.step .assign)
      cases r with
      | error x => exact ⟨_, t, .assignStop hr⟩
      | ok v =>
        cases hi : t.scopes.insert? name v with
        | some scopes => exact ⟨_, _, .assign hr hi⟩
        | none => exact ⟨_, t, .assignNowhere hr hi⟩
    | block es =>
      obtain ⟨r, t, hr⟩ := order_halts hparts s (hs.step .block)
      cases r with
      | ok vs => exact ⟨_, t, .block hr⟩
      | error x => exact ⟨_, t, .blockStop hr⟩
    | list es =>
      obtain ⟨r, t, hr⟩ := order_halts hparts s (hs.step .list)
      cases r with
      | ok vs => exact ⟨_, _, .list hr⟩
      | error x => exact ⟨_, t, .listStop hr⟩
    | map es =>
      obtain ⟨r, t, hr⟩ := order_halts hparts s (hs.step .map)
      cases r with
      | ok vs => exact ⟨_, _, .map hr⟩
      | error x => exact ⟨_, t, .mapStop hr⟩
    | call path es =>
      obtain ⟨r, t, hr⟩ := order_halts hparts s (hs.step .arguments)
      cases r with
      | error x => exact ⟨_, t, .callStop hr⟩
      | ok vs =>
        obtain ⟨r, u, hc⟩ := hcalls path ⟨es, .here⟩ vs t (hs.step (.call hr))
        exact ⟨r, u, .call hr hc⟩
    | cond test a b =>
      obtain ⟨r, t, hr⟩ := hparts test (by simp [Expr.parts]) s (hs.step .test)
      match r, hr with
      | .error x, hr => exact ⟨_, t, .condStop hr⟩
      | .ok v, hr =>
        by_cases hv : v.kind? = some .bool
        · obtain ⟨yes, rfl⟩ : ∃ yes, v = .bool yes := by
            cases v <;> simp_all [Value.kind?]
          cases yes with
          | true =>
            obtain ⟨r, u, ha⟩ := hparts a (by simp [Expr.parts]) t (hs.step (.whenTrue hr))
            exact ⟨r, u, .condTrue hr ha⟩
          | false =>
            obtain ⟨r, u, hb⟩ := hparts b (by simp [Expr.parts]) t (hs.step (.whenFalse hr))
            exact ⟨r, u, .condFalse hr hb⟩
        · exact ⟨_, t, .condOther hr hv⟩
    | loop body => exact absurd ⟨body, .here⟩ hloop
    | ret e =>
      obtain ⟨r, t, hr⟩ := hparts e (List.mem_singleton_self _) s (hs.step .ret)
      cases r with
      | ok v => exact ⟨_, t, .ret hr⟩
      | error x => exact ⟨_, t, .retStop hr⟩
    | brk e =>
      obtain ⟨r, t, hr⟩ := hparts e (List.mem_singleton_self _) s (hs.step .brk)
      cases r with
      | ok v => exact ⟨_, t, .brk hr⟩
      | error x => exact ⟨_, t, .brkStop hr⟩

/-- Where no function that an expression can come to can come to itself, and neither these functions
nor the expression have loops, evaluating the expression ends, if every handler does that runs on
the way. -/
theorem acyclic_evaluation_ends (m : Machine σ) (e : Expr)
    (hacyclic : ∀ path, m.registry.Reach e path → ¬ TransGen m.registry.Edge path path)
    (hloop : ¬ e.HasLoop)
    (hbodies : ∀ path ps es, m.registry.Reach e path →
      m.registry.resolve path = .ok (.defined ps (some es)) → ∀ x ∈ es, ¬ x.HasLoop)
    (s : State σ) (hs : Throughout m (HandlersEnd m) (.expr e s)) :
    ∃ n r t, m.eval n e s = some (r, t) := by
  have hcalls : ∀ path, m.registry.Reach e path → ∀ vs s,
      Throughout m (HandlersEnd m) (.call path vs s) → ∃ r t, Calls m path vs s r t := by
    intro path hpath
    induction Registry.acc_of_acyclic hacyclic hpath with
    | intro path _ ih =>
      refine call_halts fun ps es hresolve x hx => ?_
      refine halts_of_calls x (hbodies path ps es hpath hresolve x hx) fun callee hcallee => ?_
      have hedge : m.registry.Edge path callee := ⟨ps, es, hresolve, x, hx, hcallee⟩
      exact ih callee hedge (hpath.step hedge)
  have hhalts := halts_of_calls e hloop fun path hpath => hcalls path ⟨path, hpath, .refl⟩
  obtain ⟨r, t, hr⟩ := hhalts s hs
  obtain ⟨n, hn⟩ := eval_iff.2 hr
  exact ⟨n, r, t, hn⟩

/-! An instance: `f` calls `g` twice, and both call a handler that counts its calls. Next to them is
a function that does not end, which they cannot come to. -/

def layered : Machine Nat where
  registry := ⟨[("m", ⟨"m", [
    ("f", .defined ["x"] (some [.call ⟨"m", "g"⟩ [.var "x"],
      .call ⟨"m", "g"⟩ [.call ⟨"m", "tick"⟩ []]])),
    ("g", .defined ["x"] (some [.ret (.list [.var "x", .call ⟨"m", "tick"⟩ []])])),
    ("spin", .defined [] (some [.loop (.call ⟨"m", "spin"⟩ [])])),
    ("tick", .native 0 0 true)], []⟩)]⟩
  handlers := fun _ _ => .get fun n => .put (n + 1) (.reply (.bool true))
  traced := false

/-- Callers have greater numbers than what they call, except for `spin`. -/
def layer (path : Path) : Nat :=
  if path = ⟨"m", "f"⟩ then 2 else if path = ⟨"m", "g"⟩ then 1 else 0

theorem layered_bodies {path : Path} {ps : List String} {es : List Expr}
    (hpath : path ≠ ⟨"m", "spin"⟩)
    (h : layered.registry.resolve path = .ok (.defined ps (some es))) :
    ∀ e ∈ es, ¬ e.HasLoop ∧
      ∀ callee, e.Mentions callee → callee ≠ ⟨"m", "spin"⟩ ∧ layer callee < layer path := by
  obtain ⟨module, item⟩ := path
  simp only [layered, Registry.resolve, Registry.module?, Library.function?, Table.find?] at h
  split_ifs at h with hmodule
  subst hmodule
  simp only [Table.find?] at h
  split_ifs at h with hf hg hspin htick
  · cases h
    subst hf
    simp [Expr.HasLoop, Expr.Mentions, Expr.occurs_iff (e := .call _ _),
      Expr.occurs_iff (e := .var _), Expr.parts, layer, or_imp, forall_and]
  · cases h
    subst hg
    simp [Expr.HasLoop, Expr.Mentions, Expr.occurs_iff (e := .ret _),
      Expr.occurs_iff (e := .list _), Expr.occurs_iff (e := .call _ _),
      Expr.occurs_iff (e := .var _), Expr.parts, layer]
  · exact absurd (hspin ▸ rfl) hpath
  · cases h

theorem layered_edge {path callee : Path} (hpath : path ≠ ⟨"m", "spin"⟩)
    (h : layered.registry.Edge path callee) : callee ≠ ⟨"m", "spin"⟩ ∧ layer callee < layer path := by
  obtain ⟨ps, es, hresolve, e, he, hcallee⟩ := h
  exact (layered_bodies hpath hresolve e he).2 callee hcallee

theorem layered_way {path callee : Path} (hpath : path ≠ ⟨"m", "spin"⟩)
    (h : TransGen layered.registry.Edge path callee) : layer callee < layer path := by
  induction h using TransGen.head_induction_on with
  | single h => exact (layered_edge hpath h).2
  | head h _ ih =>
    obtain ⟨hmid, hlt⟩ := layered_edge hpath h
    exact (ih hmid).trans hlt

theorem acyclic_evaluation_ends_layered :
    let e : Expr := .block [.call ⟨"m", "f"⟩ [.bool true], .brk (.call ⟨"m", "g"⟩ [.absent])]
    (∀ path, layered.registry.Reach e path → ¬ TransGen layered.registry.Edge path path) ∧
    ¬ e.HasLoop ∧
    (∀ path ps es, layered.registry.Reach e path →
      layered.registry.resolve path = .ok (.defined ps (some es)) → ∀ x ∈ es, ¬ x.HasLoop) ∧
    (∀ s, Throughout layered (HandlersEnd layered) (.expr e s)) ∧
    ∀ w, ∃ n r t, layered.eval n e (State.start w) = some (r, t) := by
  intro e
  have hreach : ∀ path, layered.registry.Reach e path → path ≠ ⟨"m", "spin"⟩ := by
    rintro path ⟨first, hfirst, hway⟩
    have hspin : first ≠ ⟨"m", "spin"⟩ := by
      obtain ⟨arguments, hcall⟩ := hfirst
      rintro rfl
      simp [e, Expr.occurs_iff (e := .block _), Expr.occurs_iff (e := .call _ _),
        Expr.occurs_iff (e := .brk _), Expr.occurs_iff (e := .bool _),
        Expr.occurs_iff (e := .absent), Expr.parts] at hcall
    induction hway with
    | refl => exact hspin
    | tail _ hedge ih => exact (layered_edge ih hedge).1
  have hacyclic : ∀ path, layered.registry.Reach e path →
      ¬ TransGen layered.registry.Edge path path := fun path hpath hcycle =>
    Nat.lt_irrefl _ (layered_way (hreach path hpath) hcycle)
  have hloop : ¬ e.HasLoop := by
    simp [e, Expr.HasLoop, Expr.occurs_iff (e := .block _), Expr.occurs_iff (e := .call _ _),
      Expr.occurs_iff (e := .brk _), Expr.occurs_iff (e := .bool _),
      Expr.occurs_iff (e := .absent), Expr.parts]
  have hbodies : ∀ path ps es, layered.registry.Reach e path →
      layered.registry.resolve path = .ok (.defined ps (some es)) → ∀ x ∈ es, ¬ x.HasLoop :=
    fun path ps es hpath hresolve x hx => (layered_bodies (hreach path hpath) hresolve x hx).1
  have hends : ∀ s, Throughout layered (HandlersEnd layered) (.expr e s) := by
    intro s b _
    cases b with
    | handler id vs w => exact ⟨_, _, .get (.put .reply)⟩
    | _ => trivial
  exact ⟨hacyclic, hloop, hbodies, hends, fun w =>
    acyclic_evaluation_ends layered e hacyclic hloop hbodies _ (hends _)⟩

end Machine

end Arbor
