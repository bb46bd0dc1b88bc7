import Arbor.Proofs.Eval.Agreement
import Arbor.Proofs.Eval.Alike

/-!
Flattening blocks cannot be observed, unless a handler looks at bodies (`flattening_observed`).

In one block the two ways to write it are the same courses put together in another order
(`evals_eq_of_unnests`). Everywhere else in a tree, and in the bodies of functions, the difference
is carried along: each run of a machine is a run of every machine alike (`Evals.alike`).
-/

set_option autoImplicit false

namespace Arbor

variable {σ : Type}

namespace Machine

/-! ## One block after the other -/

/-- The ways in which a computation may end. -/
abbrev Course (σ : Type) := State σ → Outcome → State σ → Prop

/-- Goes on with the value of the first course, unless that stopped. -/
def Course.andThen (p : Course σ) (q : Value → Course σ) : Course σ := fun s r t =>
  (∃ x, r = .error x ∧ p s (.error x) t) ∨ ∃ v u, p s (.ok v) u ∧ q v u r t

theorem Course.andThen_assoc (p : Course σ) (q k : Value → Course σ) :
    (p.andThen q).andThen k = p.andThen fun v => (q v).andThen k := by
  funext s r t
  apply propext
  constructor
  · rintro (⟨x, rfl, ⟨y, hy, hp⟩ | ⟨v, u, hp, hq⟩⟩ | ⟨w, u', ⟨y, hy, -⟩ | ⟨v, u, hp, hq⟩, hk⟩)
    · cases hy
      exact .inl ⟨x, rfl, hp⟩
    · exact .inr ⟨v, u, hp, .inl ⟨x, rfl, hq⟩⟩
    · cases hy
    · exact .inr ⟨v, u, hp, .inr ⟨w, u', hq, hk⟩⟩
  · rintro (⟨x, rfl, hp⟩ | ⟨v, u, hp, ⟨x, rfl, hq⟩ | ⟨w, u', hq, hk⟩⟩)
    · exact .inl ⟨x, rfl, .inl ⟨x, rfl, hp⟩⟩
    · exact .inl ⟨x, rfl, .inr ⟨v, u, hp, hq⟩⟩
    · exact .inr ⟨w, u', .inr ⟨v, u, hp, hq⟩, hk⟩

/-- Expressions in order for the value of the last one, or the given value if there are none. -/
def blockCourse (m : Machine σ) (es : List Expr) (last : Value) : Course σ := fun s r t =>
  ∃ x, InOrder m es s x t ∧ r = x.map (·.getLastD last)

variable {m m' : Machine σ}

theorem evals_block (m : Machine σ) (es : List Expr) :
    Evals m (.block es) = m.blockCourse es .none := by
  funext s r t
  apply propext
  constructor
  · intro h
    cases h with
    | block hes => exact ⟨_, hes, rfl⟩
    | blockStop hes => exact ⟨_, hes, rfl⟩
  · rintro ⟨x, hes, rfl⟩
    cases x with
    | ok vs => exact .block hes
    | error x => exact .blockStop hes

theorem blockCourse_nil_andThen (m : Machine σ) (last : Value) (q : Value → Course σ) :
    (m.blockCourse [] last).andThen q = q last := by
  funext s r t
  apply propext
  constructor
  · rintro (⟨x, rfl, y, hnil, hy⟩ | ⟨v, u, ⟨y, hnil, hy⟩, hq⟩)
    · cases hnil
      cases hy
    · cases hnil
      cases hy
      exact hq
  · intro hq
    exact .inr ⟨last, s, ⟨_, .nil, rfl⟩, hq⟩

theorem blockCourse_cons (m : Machine σ) (e : Expr) (es : List Expr) (last : Value) :
    m.blockCourse (e :: es) last = Course.andThen (Evals m e) (m.blockCourse es) := by
  funext s r t
  apply propext
  constructor
  · rintro ⟨x, h, rfl⟩
    cases h with
    | cons he hes => exact .inr ⟨_, _, he, _, hes, congrArg Except.ok (List.getLastD_cons ..)⟩
    | later he hes => exact .inr ⟨_, _, he, _, hes, rfl⟩
    | stop he => exact .inl ⟨_, rfl, he⟩
  · rintro (⟨x, rfl, he⟩ | ⟨v, u, he, x, hes, rfl⟩)
    · exact ⟨_, .stop he, rfl⟩
    · cases x with
      | ok vs => exact ⟨_, .cons he hes, congrArg Except.ok (List.getLastD_cons ..).symm⟩
      | error x => exact ⟨_, .later he hes, rfl⟩

theorem blockCourse_append (m : Machine σ) (es fs : List Expr) (last : Value) :
    m.blockCourse (es ++ fs) last = (m.blockCourse es last).andThen (m.blockCourse fs) := by
  induction es generalizing last with
  | nil => exact (blockCourse_nil_andThen m last _).symm
  | cons e es ih =>
    rw [List.cons_append, blockCourse_cons, blockCourse_cons, Course.andThen_assoc]
    exact congrArg _ (funext ih)

theorem blockCourse_of_ne_nil (m : Machine σ) {es : List Expr} (h : es ≠ []) (last last' : Value) :
    m.blockCourse es last = m.blockCourse es last' := by
  cases es with
  | nil => exact absurd rfl h
  | cons e es => rw [blockCourse_cons, blockCourse_cons]

theorem evals_eq_of_unnests (m : Machine σ) {es es' : List Expr} (h : Unnests es es') :
    Evals m (.block es) = Evals m (.block es') := by
  obtain ⟨xs, ys, zs, hne⟩ := h
  have hinner : m.blockCourse (.block ys :: zs) = fun _ => m.blockCourse (ys ++ zs) .none := by
    funext v
    rw [blockCourse_cons, evals_block, ← blockCourse_append]
  rw [evals_block, evals_block, List.append_assoc, blockCourse_append, blockCourse_append, hinner]
  by_cases hlast : ys ++ zs = []
  · obtain ⟨rfl, rfl⟩ := List.append_eq_nil_iff.1 hlast
    obtain rfl : xs = [] := by simpa using hne
    rw [blockCourse_nil_andThen, blockCourse_nil_andThen]
  · congr 1
    funext v
    exact blockCourse_of_ne_nil m hlast .none v

/-! ## Runs -/

/-- The machines differ by blocks inside blocks in the bodies of functions. -/
structure Alike (m m' : Machine σ) : Prop where
  registry : m.registry.Matches Function.Alike m'.registry
  handlers : ∀ id vs,
    Action.Alike m.registry m'.registry (m.handlers id vs) (m'.handlers id vs)
  traced : m'.traced = m.traced

theorem Alike.symm (h : m.Alike m') : m'.Alike m where
  registry := h.registry.symm
  handlers id vs := (h.handlers id vs).symm
  traced := h.traced.symm

theorem Alike.logged (h : m.Alike m') : m.logged.Alike m'.logged where
  registry := h.registry
  handlers id vs := .get fun _ => .put (h.handlers id vs).logged
  traced := h.traced

theorem Alike.note_eq (h : m.Alike m') (e : Unit → Event) (w : World σ) :
    m'.note e w = m.note e w := by
  rw [note, note, h.traced]

theorem Alike.enter_eq (h : m.Alike m') {f f' : Function} (hf : f.Alike f') (path : Path)
    (arguments : Nat) (held : Held) (s : State σ) :
    m'.enter path f' arguments held s = m.enter path f arguments held s := by
  simp only [enter, h.note_eq, hf.kind_eq]

theorem Alike.leave_eq (h : m.Alike m') {f f' : Function} (hf : f.Alike f') (e : Unit → Event)
    (s : State σ) : m'.leave f' e s = m.leave f e s := by
  simp only [leave, h.note_eq, hf.release_eq]

/-- A block that is run on the other machine may be taken apart there. -/
theorem evals_block_alike {es : List Expr} {e' : Expr} {s t : State σ}
    {x : Except Stop (List Value)} (h : (Expr.block es).Alike e')
    (hes : ∀ es', List.Forall₂ Expr.Alike es es' → InOrder m' es' s x t) :
    Evals m' e' s (x.map (·.getLastD .none)) t := by
  have hsame : Evals m' (.block es) s (x.map (·.getLastD .none)) t := by
    rw [evals_block]
    exact ⟨x, hes es (Expr.Alike.all_refl es), rfl⟩
  cases h with
  | unnested h => rwa [← evals_eq_of_unnests m' h]
  | nested h => rwa [evals_eq_of_unnests m' h]
  | block h =>
    rw [evals_block]
    exact ⟨x, hes _ h, rfl⟩

/-- A function ends at its boundary as its body does as a block. -/
theorem applies_of_block {name : String} {ps : List String} {es : List Expr} {vs : List Value}
    {s t : State σ} {r : Outcome} (ha : vs.length = ps.length)
    (h : Evals m (.block es) (s.push (Frame.seed ps vs false)) r t) :
    Applies m name (.defined ps (some es)) vs s (boundary name r) t.pop := by
  cases h with
  | block hes => exact .plain ha hes
  | @blockStop _ _ _ x hes =>
    cases x with
    | ret v => exact .returned ha hes
    | brk v => exact .broke ha hes
    | fail f => exact .failed ha hes

mutual

theorem Evals.alike (hm : m.Alike m') {e e' : Expr} {s t : State σ} {r : Outcome} :
    Evals m e s r t → e.Alike e' → Evals m' e' s r t
  | .absent, .absent => .absent
  | .emptyBlock, .empty => .emptyBlock
  | .empty hb, .empty => .empty hb
  | .string, .string => .string
  | .integer, .integer => .integer
  | .float, .float => .float
  | .bool, .bool => .bool
  | .var hl, .var => .var hl
  | .unbound hl, .var => .unbound hl
  | .assign he hi, .assign h => .assign (he.alike hm h) hi
  | .assignNowhere he hi, .assign h => .assignNowhere (he.alike hm h) hi
  | .assignStop he, .assign h => .assignStop (he.alike hm h)
  | .block hes, h => evals_block_alike h fun _ => hes.alike hm
  | .blockStop hes, h => evals_block_alike h fun _ => hes.alike hm
  | .list hes, .list h => .list (hes.alike hm h)
  | .listStop hes, .list h => .listStop (hes.alike hm h)
  | .map hes, .map hkeys h => by
    rw [hkeys]
    exact .map (hes.alike hm h)
  | .mapStop hes, .map _ h => .mapStop (hes.alike hm h)
  | .call hes hc, .call h => .call (hes.alike hm h) (hc.alike hm)
  | .callStop hes, .call h => .callStop (hes.alike hm h)
  | .condTrue ht ha, .cond h h' _ => .condTrue (ht.alike hm h) (ha.alike hm h')
  | .condFalse ht hb, .cond h _ h' => .condFalse (ht.alike hm h) (hb.alike hm h')
  | .condOther ht hv, .cond h _ _ => .condOther (ht.alike hm h) hv
  | .condStop ht, .cond h _ _ => .condStop (ht.alike hm h)
  | .loopAgain hb hl, .loop h => .loopAgain (hb.alike hm h) (hl.alike hm (.loop h))
  | .loopBreak hb, .loop h => .loopBreak (hb.alike hm h)
  | .loopReturn hb, .loop h => .loopReturn (hb.alike hm h)
  | .loopFail hb, .loop h => .loopFail (hb.alike hm h)
  | .ret he, .ret h => .ret (he.alike hm h)
  | .retStop he, .ret h => .retStop (he.alike hm h)
  | .brk he, .brk h => .brk (he.alike hm h)
  | .brkStop he, .brk h => .brkStop (he.alike hm h)

theorem InOrder.alike (hm : m.Alike m') {es es' : List Expr} {s t : State σ}
    {r : Except Stop (List Value)} :
    InOrder m es s r t → List.Forall₂ Expr.Alike es es' → InOrder m' es' s r t
  | .nil, .nil => .nil
  | .cons he hes, .cons h hs => .cons (he.alike hm h) (hes.alike hm hs)
  | .later he hes, .cons h hs => .later (he.alike hm h) (hes.alike hm hs)
  | .stop he, .cons h _ => .stop (he.alike hm h)

theorem Calls.alike (hm : m.Alike m') {path : Path} {vs : List Value} {s t : State σ}
    {r : Outcome} : Calls m path vs s r t → Calls m' path vs s r t
  | .unavailable hc => .unavailable (hm.registry.acquire_error hc)
  | .returns hf ha => by
    obtain ⟨f', hf', h⟩ := hm.registry.acquire_ok hf
    have hrun := ha.alike hm h
    rw [← hm.enter_eq h] at hrun
    rw [← hm.leave_eq h]
    exact .returns hf' hrun
  | .fails hf ha => by
    obtain ⟨f', hf', h⟩ := hm.registry.acquire_ok hf
    have hrun := ha.alike hm h
    rw [← hm.enter_eq h] at hrun
    rw [← hm.leave_eq h]
    exact .fails hf' hrun

theorem Applies.alike (hm : m.Alike m') {name : String} {f f' : Function} {vs : List Value}
    {s t : State σ} {r : Outcome} :
    Applies m name f vs s r t → f.Alike f' → Applies m' name f' vs s r t
  | .definedArity ha, .bodyless => .definedArity ha
  | .definedArity ha, .defined _ => .definedArity ha
  | .bodyless ha, .bodyless => .bodyless ha
  | .plain ha hes, .defined h => applies_of_block ha (evals_block_alike h fun _ => hes.alike hm)
  | .returned ha hes, .defined h => applies_of_block ha (evals_block_alike h fun _ => hes.alike hm)
  | .broke ha hes, .defined h => applies_of_block ha (evals_block_alike h fun _ => hes.alike hm)
  | .failed ha hes, .defined h => applies_of_block ha (evals_block_alike h fun _ => hes.alike hm)
  | .nativeArity ha, .native => .nativeArity ha
  | .unhandled ha, .native => .unhandled ha
  | .replied ha hp, .native => .replied ha (hp.alike hm (hm.handlers _ _))
  | .refused ha hp, .native => .refused ha (hp.alike hm (hm.handlers _ _))
  | .imported, .imported => .imported

theorem Performs.alike (hm : m.Alike m') {a a' : Action σ} {w w' : World σ}
    {r : Except Failure Value} :
    Performs m a w r w' → Action.Alike m.registry m'.registry a a' → Performs m' a' w r w'
  | .reply, .reply => .reply
  | .refuse, .refuse => .refuse
  | .get h, .get hn => .get (h.alike hm (hn _))
  | .put h, .put hn => .put (h.alike hm hn)
  | .list h, .list hn => .list (h.alike hm (hn _))
  | .object h, .object hn => .object (h.alike hm (hn _))
  | .call hc h, .call hn => .call (hc.alike hm) (h.alike hm (hn _))
  | .evaluate he h, .evaluate hee hn => .evaluate (he.alike hm hee) (h.alike hm (hn _))
  | .acquire hf h, .acquire _ hn => by
    obtain ⟨f', hf', -⟩ := hm.registry.acquire_ok hf
    have hnext := hn _ _ (Registry.resolve_of_acquire hf) (Registry.resolve_of_acquire hf')
    exact .acquire hf' (h.alike hm hnext)
  | .acquireRefused hc h, .acquire hn _ =>
    .acquireRefused (hm.registry.acquire_error hc) (h.alike hm (hn _))
  | .release h, .release hf hn => by
    have hrun := h.alike hm hn
    rw [← hf] at hrun
    exact .release hrun

end

/-! ## What is seen from outside -/

/-- No handler can tell the functions of the machine from those of another registry. -/
def Indifferent (m : Machine σ) (r : Registry) : Prop :=
  ∀ id vs, Action.Alike m.registry r (m.handlers id vs) (m.handlers id vs)

theorem alike_of_flattens {r : Registry} (hr : m.registry.Matches Function.Flattens r)
    (hm : m.Indifferent r) : m.Alike { m with registry := r } where
  registry := hr.imp fun _ _ h => h.alike
  handlers := hm
  traced := rfl

theorem apart_of_eventually {c c' : Nat → Eval σ Value} {w : World σ} {r : Outcome} {t : State σ}
    (h : ∀ᶠ n in Filter.atTop, c n (State.start w) = some (r, t))
    (h' : ∀ᶠ n in Filter.atTop, c' n (State.start w) = some (r, t)) :
    ∃ n, apart (c n) w = some (settle t.calls.reverse r, t.world) ∧
      apart (c' n) w = some (settle t.calls.reverse r, t.world) := by
  obtain ⟨n, hn, hn'⟩ := (h.and h').exists
  exact ⟨n, apart_eq_some.2 ⟨_, _, hn, rfl, rfl⟩, apart_eq_some.2 ⟨_, _, hn', rfl, rfl⟩⟩

theorem apart_of_imp {c c' : Nat → Eval σ Value} {w : World σ}
    (h : ∀ r t, (∃ n, c n (State.start w) = some (r, t)) → ∃ n, c' n (State.start w) = some (r, t))
    {p : Except Failure Value × World σ} (hp : ∃ n, apart (c n) w = some p) :
    ∃ n, apart (c' n) w = some p := by
  obtain ⟨n, hn⟩ := hp
  obtain ⟨r, t, hr, hx, hw⟩ := apart_eq_some.1 hn
  obtain ⟨k, hk⟩ := h r t ⟨n, hr⟩
  exact ⟨k, apart_eq_some.2 ⟨r, t, hk, hx, hw⟩⟩

theorem Alike.evaluate (h : m.Alike m') {e e' : Expr} (he : e.Alike e') {w : World σ}
    {p : Except Failure Value × World σ} :
    (∃ n, m.evaluate n e w = some p) → ∃ n, m'.evaluate n e' w = some p :=
  apart_of_imp fun _ _ hr => eval_iff.2 ((eval_iff.1 hr).alike h he)

theorem Alike.call (h : m.Alike m') {path : Path} {vs : List Value} {w : World σ}
    {p : Except Failure Value × World σ} :
    (∃ n, m.call n path vs w = some p) → ∃ n, m'.call n path vs w = some p :=
  apart_of_imp fun _ _ hr => callPath_iff.2 ((callPath_iff.1 hr).alike h)

/-- Flattening a block inside a block cannot be observed, be it in the expression or in the body of
functions: an evaluation or call has a result with the one exactly if it has the same result with
the other, the same value or the same failure in the same world, after the same host calls. -/
theorem flattening_unobserved (m : Machine σ) (r : Registry)
    (hr : m.registry.Matches Function.Flattens r) (hm : m.Indifferent r) (e e' : Expr)
    (he : e = e' ∨ e.Flattens e') (w : World σ) :
    let m' := { m with registry := r }
    (∀ p, (∃ n, m.evaluate n e w = some p) ↔ ∃ n, m'.evaluate n e' w = some p) ∧
    (∀ path vs p, (∃ n, m.call n path vs w = some p) ↔ ∃ n, m'.call n path vs w = some p) ∧
    (∀ x w', (∃ n, m.evaluate n e w = some (x, w')) → ∃ n log,
      m.logged.evaluate n e (w.withLog []) = some (x, w'.withLog log) ∧
      m'.logged.evaluate n e' (w.withLog []) = some (x, w'.withLog log)) ∧
    ∀ path vs x w', (∃ n, m.call n path vs w = some (x, w')) → ∃ n log,
      m.logged.call n path vs (w.withLog []) = some (x, w'.withLog log) ∧
      m'.logged.call n path vs (w.withLog []) = some (x, w'.withLog log) := by
  intro m'
  have h : m.Alike m' := alike_of_flattens hr hm
  have halike : e.Alike e' := by
    obtain rfl | he := he
    · exact .refl e
    · exact he.alike
  refine ⟨fun p => ⟨h.evaluate halike, h.symm.evaluate halike.symm⟩,
    fun path vs p => ⟨h.call, h.symm.call⟩, ?_, ?_⟩
  · rintro x w' ⟨n, hn⟩
    obtain ⟨r, t, hr, rfl, rfl⟩ := apart_eq_some.1 hn
    obtain ⟨log, hlog⟩ := ((sound m n).eval hr).logged []
    obtain ⟨k, hk⟩ := apart_of_eventually hlog.complete (hlog.alike h.logged halike).complete
    exact ⟨k, log, hk⟩
  · rintro path vs x w' ⟨n, hn⟩
    obtain ⟨r, t, hr, rfl, rfl⟩ := apart_eq_some.1 hn
    obtain ⟨log, hlog⟩ := ((sound m n).call hr).logged []
    obtain ⟨k, hk⟩ := apart_of_eventually hlog.complete (hlog.alike h.logged).complete
    exact ⟨k, log, hk⟩

/-! An instance: in `f` a block makes a host call and binds `y` again before it is returned. The
handler takes `f` into use, and counts. -/

def around : Library := (Library.empty "m").add "hit" (.native 0 1 true)

def nesting : Machine Nat where
  registry := Registry.empty.register (around.add "f" (.defined ["x"] (some
    [.assign "y" (.string "a"), .block [.call ⟨"m", "hit"⟩ [.var "y"], .assign "y" (.var "x")],
      .ret (.var "y")])))
  handlers := fun _ _ => .acquire ⟨"m", "f"⟩ fun
    | .ok f => .release f (.get fun count => .put (count + 1) (.reply .none))
    | .error c => .refuse (.ofCause c)
  traced := true

/-- The registry of `nesting` without the inner block. -/
def unnesting : Registry :=
  Registry.empty.register (around.add "f" (.defined ["x"] (some
    [.assign "y" (.string "a"), .call ⟨"m", "hit"⟩ [.var "y"], .assign "y" (.var "x"),
      .ret (.var "y")])))

theorem nesting_indifferent : nesting.Indifferent unnesting := by
  intro id vs
  refine .acquire (fun c => .refuse) fun f f' hf hf' => ?_
  cases hf
  cases hf'
  exact .release (fun _ => rfl) (.get fun _ => .put .reply)

theorem flattening_unobserved_nested :
    let e : Expr := .loop (.brk (.list [.block [.absent, .block [.call ⟨"m", "f"⟩ [.bool true]]]]))
    let e' : Expr := .loop (.brk (.list [.block [.absent, .call ⟨"m", "f"⟩ [.bool true]]]))
    nesting.registry.Matches Function.Flattens unnesting ∧ nesting.Indifferent unnesting ∧
    (e = e' ∨ e.Flattens e') ∧
    ∃ n w, { nesting with registry := unnesting }.evaluate n e' (World.start 0)
        = some (.ok (.list 0 [.bool true]), w) ∧ w.host = 1 := by
  intro e e'
  have hr : nesting.registry.Matches Function.Flattens unnesting :=
    Registry.matches_register _ _ _ (.body (.here (.intro [_] [_, _] [_] (.inl (by simp)))))
  have he : e.Flattens e' :=
    .loop (.brk (@Expr.Flattens.list [] [] _ _ (.here (.intro [_] [_] [] (.inl (by simp))))))
  obtain ⟨hevaluate, -⟩ := flattening_unobserved nesting unnesting hr nesting_indifferent e e'
    (.inr he) (World.start 0)
  obtain ⟨n, hn⟩ := (hevaluate _).1 ⟨30, rfl⟩
  exact ⟨hr, nesting_indifferent, .inr he, n, _, hn, rfl⟩

/-! A handler that takes a function into use sees its body as it is written. -/

theorem call_unique {m : Machine σ} {path : Path} {vs : List Value} {w : World σ}
    {p q : Except Failure Value × World σ} (hp : ∃ n, m.call n path vs w = some p)
    (hq : ∃ n, m.call n path vs w = some q) : p = q := by
  obtain ⟨n, hn⟩ := hp
  obtain ⟨k, hk⟩ := hq
  obtain ⟨r, t, hr, hx, hw⟩ := apart_eq_some.1 hn
  obtain ⟨r', t', hr', hx', hw'⟩ := apart_eq_some.1 hk
  obtain ⟨j, hj, hj'⟩ :=
    ((callPath_iff.1 ⟨n, hr⟩).complete.and (callPath_iff.1 ⟨k, hr'⟩).complete).exists
  cases hj.symm.trans hj'
  exact Prod.ext (hx.trans hx'.symm) (hw.trans hw'.symm)

def bodyLength : Function → Nat
  | .defined _ body => (body.getD []).length
  | _ => 0

/-- A machine whose handler tells how many expressions the body of `f` has. -/
def measuring (body : List Expr) : Machine Unit where
  registry := Registry.empty.register (around.add "f" (.defined [] (some body)))
  handlers := fun _ _ => .acquire ⟨"m", "f"⟩ fun
    | .ok f => .release f (.reply (.integer (.ofNat (bodyLength f))))
    | .error c => .refuse (.ofCause c)
  traced := false

/-- A handler can tell two machines apart that differ by a block inside a block in a body. -/
theorem flattening_observed :
    let nested := measuring [.block [.string "a", .string "b"], .string "c"]
    let flat := measuring [.string "a", .string "b", .string "c"]
    nested.registry.Matches Function.Flattens flat.registry ∧
    { nested with registry := flat.registry } = flat ∧
    (∃ n, nested.call n ⟨"m", "hit"⟩ [.none] (World.start ()) =
      some (.ok (.integer 2), World.start ())) ∧
    ¬ ∃ n, flat.call n ⟨"m", "hit"⟩ [.none] (World.start ()) =
      some (.ok (.integer 2), World.start ()) := by
  intro nested flat
  have hr : nested.registry.Matches Function.Flattens flat.registry :=
    Registry.matches_register _ _ _ (.body (.here (.intro [] [_, _] [_] (.inl (by simp)))))
  have hflat : flat.call 10 ⟨"m", "hit"⟩ [.none] (World.start ()) =
      some (.ok (.integer 3), World.start ()) := rfl
  refine ⟨hr, rfl, ⟨10, rfl⟩, fun hsame => ?_⟩
  cases call_unique hsame ⟨10, hflat⟩

end Machine

end Arbor
