import Arbor.Proofs.Eval.Bindings
import Arbor.Proofs.Eval.Jumps
import Arbor.Proofs.Eval.Moments

/-!
No value goes missing.

A value is `Whole` if nothing is missing in it at any depth. The evaluator makes whole values only.
Others can come from the host alone, through a handler's reply or the arguments of a call it makes;
where these are whole at all moments of a run (`Supplies`), so is every frame, argument and outcome
of it (`reached_whole`).

The invariant is on ends first (`Evals.whole`), by the rules, and then on moments, since a moment
may begin in a state at which other parts of the run have ended.
-/

set_option autoImplicit false

namespace Arbor

variable {σ α β : Type}

/-! ## Whole values -/

/-- Nothing is missing, at any depth. -/
inductive Value.Whole : Value → Prop where
  | string {x : String} : Value.Whole (.string x)
  | integer {x : Int32} : Value.Whole (.integer x)
  | float {x : Single} : Value.Whole (.float x)
  | bool {x : Bool} : Value.Whole (.bool x)
  | none : Value.Whole .none
  | list {h : Handle} {es : List Value} : (∀ v ∈ es, v.Whole) → Value.Whole (.list h es)
  | object {h : Handle} {fs : List (String × Value)} :
      (∀ p ∈ fs, p.2.Whole) → Value.Whole (.object h fs)

theorem Value.whole_orNone {v : Value} (h : v ≠ .missing → v.Whole) : v.orNone.Whole := by
  cases v with
  | missing => exact .none
  | _ => exact h nofun

theorem Value.whole_getLastD {vs : List Value} (h : ∀ v ∈ vs, v.Whole) :
    (vs.getLastD .none).Whole :=
  all_getLastD .none h

def Table.Whole (t : Table Value) : Prop := ∀ p ∈ t, p.2.Whole

theorem Table.whole_ofPairs (names : List String) {vs : List Value} (h : ∀ v ∈ vs, v.Whole) :
    Table.Whole (Table.ofPairs (names.zip vs)) :=
  Table.all_ofPairs names h

def Scopes.Whole (s : Scopes) : Prop := ∀ f ∈ s.frames, Table.Whole f.bindings

theorem Scopes.whole_empty : Scopes.empty.Whole := nofun

theorem Scopes.Whole.push {s : Scopes} (h : s.Whole) {f : Frame} (hf : Table.Whole f.bindings) :
    (s.push f).Whole :=
  Scopes.All.push (W := Value.Whole) h hf

theorem Scopes.Whole.pop {s : Scopes} (h : s.Whole) : s.pop.Whole :=
  Scopes.All.pop (W := Value.Whole) h

theorem Scopes.Whole.insert {s t : Scopes} {name : String} {v : Value} (h : s.Whole) (hv : v.Whole)
    (ht : s.insert? name v = some t) : t.Whole :=
  Scopes.All.insert (W := Value.Whole) h hv ht

theorem Scopes.whole_search {name : String} {v : Value} {frames : List Frame}
    (h : ∀ f ∈ frames, Table.Whole f.bindings) (hv : Scopes.search name frames = some v) :
    v.Whole :=
  Scopes.all_search (W := Value.Whole) h hv

/-! ## Whole ends -/

/-- The value of an outcome is as `W` says; the value that a return or break carries is whole. -/
def Holds (W : α → Prop) : Except Stop α → Prop
  | .ok a => W a
  | .error (.ret v) => v.Whole
  | .error (.brk v) => v.Whole
  | .error (.fail _) => True

theorem Holds.stop {W : α → Prop} {W' : β → Prop} {x : Stop} (h : Holds W (.error x)) :
    Holds W' (.error x) := by
  cases x with
  | ret v => exact h
  | brk v => exact h
  | fail f => trivial

namespace Machine

variable {m : Machine σ}

/-- What the host supplies at a moment is whole: a reply that is there, and the arguments of a call
that a handler makes. -/
def Supplied (m : Machine σ) : Moment σ → Prop
  | .handler id vs w => ∀ v w', Performs m (m.handlers id vs) w (.ok v) w' → v ≠ .missing → v.Whole
  | .act (.call _ vs _) _ => ∀ v ∈ vs, v.Whole
  | _ => True

/-- What the host supplies is whole at every moment that is reached. -/
def Supplies (m : Machine σ) (a : Moment σ) : Prop := ∀ b, Reaches m a b → Supplied m b

theorem Supplies.along {a b : Moment σ} (h : Supplies m a) (hr : Reaches m a b) : Supplies m b :=
  fun c hc => h c (Relation.ReflTransGen.trans hr hc)

theorem Supplies.step {a b : Moment σ} (h : Supplies m a) (hl : Leads m a b) : Supplies m b :=
  h.along (Relation.ReflTransGen.single hl)

theorem Supplies.reply {id : NativeId} {vs : List Value} {w w' : World σ} {v : Value}
    (h : Supplies m (.handler id vs w)) (hp : Performs m (m.handlers id vs) w (.ok v) w') :
    v.orNone.Whole :=
  Value.whole_orNone (h _ .refl v w' hp)

theorem Supplies.arguments {path : Path} {vs : List Value} {next : Except Failure Value → Action σ}
    {w : World σ} (h : Supplies m (.act (.call path vs next) w)) : ∀ v ∈ vs, v.Whole :=
  h _ .refl

/-- The run has ended with whole values, and left whole values bound. -/
structure WholeEnd (W : α → Prop) (r : Except Stop α) (t : State σ) : Prop where
  outcome : Holds W r
  scopes : t.scopes.Whole

theorem WholeEnd.stop {W : α → Prop} {W' : β → Prop} {x : Stop} {t : State σ}
    (h : WholeEnd W (.error x) t) : WholeEnd W' (.error x) t :=
  ⟨h.outcome.stop, h.scopes⟩

mutual

theorem Evals.whole {e : Expr} {s t : State σ} {r : Outcome} :
    Evals m e s r t → Supplies m (.expr e s) → s.scopes.Whole → WholeEnd Value.Whole r t
  | .absent, _, hs => ⟨.none, hs⟩
  | .emptyBlock, _, hs => ⟨.none, hs⟩
  | .empty _, _, hs => ⟨trivial, hs⟩
  | .string, _, hs => ⟨.string, hs⟩
  | .integer, _, hs => ⟨.integer, hs⟩
  | .float, _, hs => ⟨.float, hs⟩
  | .bool, _, hs => ⟨.bool, hs⟩
  | .var hl, _, hs => ⟨Scopes.whole_search hs hl, hs⟩
  | .unbound _, _, hs => ⟨trivial, hs⟩
  | .assign he hi, h, hs =>
    have ht := he.whole (h.step .assign) hs
    ⟨ht.outcome, ht.scopes.insert ht.outcome hi⟩
  | .assignNowhere he _, h, hs => ⟨trivial, (he.whole (h.step .assign) hs).scopes⟩
  | .assignStop he, h, hs => he.whole (h.step .assign) hs
  | .block hes, h, hs =>
    have ht := hes.whole (h.step .block) hs
    ⟨Value.whole_getLastD ht.outcome, ht.scopes⟩
  | .blockStop hes, h, hs => (hes.whole (h.step .block) hs).stop
  | .list hes, h, hs =>
    have ht := hes.whole (h.step .list) hs
    ⟨.list ht.outcome, ht.scopes⟩
  | .listStop hes, h, hs => (hes.whole (h.step .list) hs).stop
  | .map hes, h, hs =>
    have ht := hes.whole (h.step .map) hs
    ⟨.object (Table.whole_ofPairs _ ht.outcome), ht.scopes⟩
  | .mapStop hes, h, hs => (hes.whole (h.step .map) hs).stop
  | .call hes hc, h, hs =>
    have ht := hes.whole (h.step .arguments) hs
    hc.whole (h.step (.call hes)) ht.outcome ht.scopes
  | .callStop hes, h, hs => (hes.whole (h.step .arguments) hs).stop
  | .condTrue ht ha, h, hs => ha.whole (h.step (.whenTrue ht)) (ht.whole (h.step .test) hs).scopes
  | .condFalse ht hb, h, hs => hb.whole (h.step (.whenFalse ht)) (ht.whole (h.step .test) hs).scopes
  | .condOther ht _, h, hs => ⟨trivial, (ht.whole (h.step .test) hs).scopes⟩
  | .condStop ht, h, hs => ht.whole (h.step .test) hs
  | .loopAgain hb hl, h, hs => hl.whole (h.step (.again hb)) (hb.whole (h.step .body) hs).scopes
  | .loopBreak hb, h, hs =>
    have ht := hb.whole (h.step .body) hs
    ⟨ht.outcome, ht.scopes⟩
  | .loopReturn hb, h, hs => hb.whole (h.step .body) hs
  | .loopFail hb, h, hs => hb.whole (h.step .body) hs
  | .ret he, h, hs =>
    have ht := he.whole (h.step .ret) hs
    ⟨ht.outcome, ht.scopes⟩
  | .retStop he, h, hs => he.whole (h.step .ret) hs
  | .brk he, h, hs =>
    have ht := he.whole (h.step .brk) hs
    ⟨ht.outcome, ht.scopes⟩
  | .brkStop he, h, hs => he.whole (h.step .brk) hs

theorem InOrder.whole {es : List Expr} {s t : State σ} {r : Except Stop (List Value)} :
    InOrder m es s r t → Supplies m (.order es s) → s.scopes.Whole →
      WholeEnd (fun vs => ∀ v ∈ vs, v.Whole) r t
  | .nil, _, hs => ⟨nofun, hs⟩
  | .cons he hes, h, hs =>
    have hv := he.whole (h.step .head) hs
    have hvs := hes.whole (h.step (.tail he)) hv.scopes
    ⟨List.forall_mem_cons.2 ⟨hv.outcome, hvs.outcome⟩, hvs.scopes⟩
  | .later he hes, h, hs => hes.whole (h.step (.tail he)) (he.whole (h.step .head) hs).scopes
  | .stop he, h, hs => (he.whole (h.step .head) hs).stop

theorem Calls.whole {path : Path} {vs : List Value} {s t : State σ} {r : Outcome} :
    Calls m path vs s r t → Supplies m (.call path vs s) → (∀ v ∈ vs, v.Whole) → s.scopes.Whole →
      WholeEnd Value.Whole r t
  | .unavailable _, _, _, hs => ⟨trivial, hs⟩
  | .returns hf ha, h, hvs, hs =>
    have ht := ha.whole (h.step (.enter hf)) hvs hs
    ⟨ht.outcome, ht.scopes⟩
  | .fails hf ha, h, hvs, hs => ⟨trivial, (ha.whole (h.step (.enter hf)) hvs hs).scopes⟩

theorem Applies.whole {name : String} {f : Function} {vs : List Value} {s t : State σ}
    {r : Outcome} : Applies m name f vs s r t → Supplies m (.run name f vs s) →
      (∀ v ∈ vs, v.Whole) → s.scopes.Whole → WholeEnd Value.Whole r t
  | .definedArity _, _, _, hs => ⟨trivial, hs⟩
  | .bodyless _, _, _, hs => ⟨.none, hs⟩
  | .plain ha hes, h, hvs, hs =>
    have ht := hes.whole (h.step (.defined ha)) (hs.push (Table.whole_ofPairs _ hvs))
    ⟨Value.whole_getLastD ht.outcome, ht.scopes.pop⟩
  | .returned ha hes, h, hvs, hs =>
    have ht := hes.whole (h.step (.defined ha)) (hs.push (Table.whole_ofPairs _ hvs))
    ⟨ht.outcome, ht.scopes.pop⟩
  | .broke ha hes, h, hvs, hs =>
    have ht := hes.whole (h.step (.defined ha)) (hs.push (Table.whole_ofPairs _ hvs))
    ⟨trivial, ht.scopes.pop⟩
  | .failed ha hes, h, hvs, hs =>
    have ht := hes.whole (h.step (.defined ha)) (hs.push (Table.whole_ofPairs _ hvs))
    ⟨trivial, ht.scopes.pop⟩
  | .nativeArity _, _, _, hs => ⟨trivial, hs⟩
  | .unhandled _, _, _, hs => ⟨trivial, hs⟩
  -- the handler is not followed here: that its reply is whole is what the host supplies
  | .replied ha hp, h, _, hs => ⟨(h.step (.native ha)).reply hp, hs⟩
  | .refused _ _, _, _, hs => ⟨trivial, hs⟩
  | .imported, _, _, hs => ⟨trivial, hs⟩

end

theorem whole_of_settle {r : Outcome} {v : Value} {stack : List Path} (hr : Holds Value.Whole r)
    (h : settle stack r = .ok v) : v.Whole := by
  match r, hr, h with
  | .ok x, hr, h =>
    cases h
    exact Value.whole_orNone fun _ => hr

/-! ## Whole moments -/

/-- What a moment begins with is whole: the bound values, and the arguments if there are any. -/
def Begins : Moment σ → Prop
  | .expr _ s => s.scopes.Whole
  | .order _ s => s.scopes.Whole
  | .call _ vs s => (∀ v ∈ vs, v.Whole) ∧ s.scopes.Whole
  | .run _ _ vs s => (∀ v ∈ vs, v.Whole) ∧ s.scopes.Whole
  | .handler _ vs _ => ∀ v ∈ vs, v.Whole
  | .act _ _ => True

/-- What begins at a moment can end with whole values only. -/
def Ends (m : Machine σ) : Moment σ → Prop
  | .expr e s => ∀ r t, Evals m e s r t → WholeEnd Value.Whole r t
  | .order es s => ∀ r t, InOrder m es s r t → WholeEnd (fun vs => ∀ v ∈ vs, v.Whole) r t
  | .call path vs s => ∀ r t, Calls m path vs s r t → WholeEnd Value.Whole r t
  | .run name f vs s => ∀ r t, Applies m name f vs s r t → WholeEnd Value.Whole r t
  | .handler _ _ _ => True
  | .act _ _ => True

theorem ends_of_begins {a : Moment σ} (h : Supplies m a) (ha : Begins a) : Ends m a := by
  cases a with
  | expr e s => exact fun r t he => he.whole h ha
  | order es s => exact fun r t hes => hes.whole h ha
  | call path vs s => exact fun r t hc => hc.whole h ha.1 ha.2
  | run name f vs s => exact fun r t hf => hf.whole h ha.1 ha.2
  | handler id vs w => trivial
  | act a w => trivial

theorem Leads.begins {a b : Moment σ} (hl : Leads m a b) (h : Supplies m a) (ha : Begins a) :
    Begins b := by
  cases hl with
  | assign | block | list | map | arguments | test | body | ret | brk | head => exact ha
  | call hes =>
    have ht := hes.whole (h.step .arguments) ha
    exact ⟨ht.outcome, ht.scopes⟩
  | whenTrue ht => exact (ht.whole (h.step .test) ha).scopes
  | whenFalse ht => exact (ht.whole (h.step .test) ha).scopes
  | again hb => exact (hb.whole (h.step .body) ha).scopes
  | tail he => exact (he.whole (h.step .head) ha).scopes
  | enter hf => exact ha
  | defined hlen => exact ha.2.push (Table.whole_ofPairs _ ha.1)
  | native hlen => exact ha.1
  | callBack => exact ⟨h.arguments, Scopes.whole_empty⟩
  | evaluate => exact Scopes.whole_empty
  | _ => trivial

theorem reached_whole {a b : Moment σ} (h : Supplies m a) (ha : Begins a) (hr : Reaches m a b) :
    Begins b ∧ Ends m b := by
  have hb : Begins b := by
    induction hr with
    | refl => exact ha
    | tail hab hbc ih => exact hbc.begins (h.along hab) ih
  exact ⟨hb, ends_of_begins (h.along hr) hb⟩

/-- An evaluation or a call in a context of its own that ends shows a value that is there, or a
failure on which the active calls are recorded and which stems from no return or break; no call in
any context ends with a return or break. As long as what the host supplies is whole, so are all
values that are bound, passed on or returned at any moment. -/
theorem outcomes_settled_and_whole (m : Machine σ) (I : σ → Prop) (hm : m.Jumpless I) (w : World σ)
    (hw : I w.host) :
    (∀ n e r w', m.evaluate n e w = some (r, w') → Settled r) ∧
    (∀ n path vs r w', m.call n path vs w = some (r, w') → Settled r) ∧
    (∀ n path vs s r t, m.callPath n path vs s = some (r, t) →
      (∃ v, r = .ok v) ∨ ∃ x : Failure, x.isLocated = true ∧ r = .error (.fail x)) ∧
    (∀ e, Supplies m (.expr e (State.start w)) →
      (∀ a, Reaches m (.expr e (State.start w)) a → Begins a ∧ Ends m a) ∧
      ∀ n v w', m.evaluate n e w = some (.ok v, w') → v.Whole) ∧
    ∀ path vs, (∀ v ∈ vs, v.Whole) → Supplies m (.call path vs (State.start w)) →
      (∀ a, Reaches m (.call path vs (State.start w)) a → Begins a ∧ Ends m a) ∧
      ∀ n v w', m.call n path vs w = some (.ok v, w') → v.Whole := by
  refine ⟨?_, ?_, ?_, ?_, ?_⟩
  · intro n e r w' h
    obtain ⟨x, t, hx, rfl, -⟩ := apart_eq_some.1 h
    exact settled_of_clear (((sound m n).eval hx).clear hm hw) _
  · intro n path vs r w' h
    obtain ⟨x, t, hx, rfl, -⟩ := apart_eq_some.1 h
    exact settled_of_clear (((sound m n).call hx).clear hm hw) _
  · intro n path vs s r t h
    exact ((sound m n).call h).ends
  · intro e h
    refine ⟨fun a ha => reached_whole h Scopes.whole_empty ha, fun n v w' hv => ?_⟩
    obtain ⟨x, t, hx, hsettle, -⟩ := apart_eq_some.1 hv
    exact whole_of_settle (((sound m n).eval hx).whole h Scopes.whole_empty).outcome hsettle.symm
  · intro path vs hvs h
    refine ⟨fun a ha => reached_whole h ⟨hvs, Scopes.whole_empty⟩ ha, fun n v w' hv => ?_⟩
    obtain ⟨x, t, hx, hsettle, -⟩ := apart_eq_some.1 hv
    exact whole_of_settle (((sound m n).call hx).whole h hvs Scopes.whole_empty).outcome hsettle.symm

/-! An instance: `f` binds what the native `g` makes of its argument, and `g` calls `k` and replies
with nothing. -/

def answering : Machine Unit where
  registry := ⟨[("m", ⟨"m", [
    ("f", .defined ["x"] (some [.assign "y" (.call ⟨"m", "g"⟩ [.var "x"]),
      .ret (.list [.var "y", .var "x"])])),
    ("g", .native 0 1 true), ("k", .defined ["x"] none)], []⟩)]⟩
  handlers := fun _ _ => .call ⟨"m", "k"⟩ [.integer 1] fun _ => .reply .missing
  traced := true

theorem answering_jumpless : answering.Jumpless fun _ => True := fun _ _ _ _ => trivial

theorem answering_acts {a : Moment Unit} {x : Action Unit} {w : World Unit}
    (hr : Reaches answering a (.act x w)) (ha : ∀ y u, a ≠ .act y u) :
    x = .call ⟨"m", "k"⟩ [.integer 1] (fun _ => .reply .missing) ∨ x = .reply .missing := by
  generalize hb : Moment.act x w = b at hr
  induction hr generalizing x w with
  | refl => cases ha x w hb.symm
  | tail hab hbc ih =>
    subst hb
    cases hbc with
    | handler => exact .inl rfl
    | calledBack hc =>
      obtain hx | hx := ih rfl
      · cases hx
        exact .inr rfl
      · cases hx
    | _ => obtain hx | hx := ih rfl <;> cases hx

theorem answering_supplies {a : Moment Unit} (ha : ∀ y u, a ≠ .act y u) : Supplies answering a := by
  intro b hr
  cases b with
  | act x w =>
    obtain rfl | rfl := answering_acts hr ha
    · exact List.forall_mem_singleton.2 .integer
    · trivial
  | handler id vs w =>
    intro v w' hp hv
    cases hp with
    | call hc h =>
      cases h
      cases hv rfl
  | _ => trivial

theorem outcomes_settled_and_whole_answering :
    let w : World Unit := World.start ()
    let start : Moment Unit := .call ⟨"m", "f"⟩ [.integer 3] (State.start w)
    answering.Jumpless (fun _ => True) ∧ Supplies answering start ∧
      (∃ w', answering.call 20 ⟨"m", "f"⟩ [.integer 3] w
        = some (.ok (.list 0 [.none, .integer 3]), w')) ∧
      Settled (.ok (.list 0 [.none, .integer 3])) ∧
      (Value.list 0 [.none, .integer 3]).Whole ∧
      ∀ a, Reaches answering start a → Begins a ∧ Ends answering a := by
  intro w start
  have hsupplies : Supplies answering start := answering_supplies nofun
  have hargs : ∀ v ∈ [Value.integer 3], v.Whole := List.forall_mem_singleton.2 .integer
  obtain ⟨-, hsettled, -, -, hwhole⟩ :=
    outcomes_settled_and_whole answering (fun _ => True) answering_jumpless w trivial
  obtain ⟨hreach, hvalue⟩ := hwhole ⟨"m", "f"⟩ [.integer 3] hargs hsupplies
  have hcall : ∃ w', answering.call 20 ⟨"m", "f"⟩ [.integer 3] w
      = some (.ok (.list 0 [.none, .integer 3]), w') := ⟨_, rfl⟩
  obtain ⟨w', h⟩ := hcall
  exact ⟨answering_jumpless, hsupplies, ⟨w', h⟩, hsettled _ _ _ _ _ h, hvalue _ _ _ h, hreach⟩

end Machine

end Arbor
