import Arbor.Proofs.Eval.Agreement
import Arbor.Proofs.Eval.Categories
import Arbor.Proofs.Eval.Lockstep
import Arbor.Proofs.Eval.Moments

/-!
Breaks that stay inside loops.

An expression is break-closed if each of its breaks lies in the body of one of its loops. This is
read off the tree, and it is enough: no run of a break-closed expression ends with a break
(`Evals.emits`), and where all function bodies are break-closed no run fails for a return, break or
assignment out of place, apart from those at the very top (`Evals.placed`).

The two ways of going into a tree, everywhere and everywhere but into loops, are one relation,
`Expr.Occurs`.
-/

set_option autoImplicit false

namespace Arbor

variable {σ : Type}

/-! ## Nodes of a tree -/

/-- The expressions right below the top of an expression, in the order of their evaluation. -/
def Expr.parts : Expr → List Expr
  | .block es => es
  | .assign _ e => [e]
  | .list es => es
  | .map es => es.filterMap Entry.value?
  | .call _ es => es
  | .cond test a b => [test, a, b]
  | .loop e => [e]
  | .ret e => [e]
  | .brk e => [e]
  | .absent | .empty _ | .var _ | .string _ | .integer _ | .float _ | .bool _ => []

def Expr.isLoop : Expr → Bool
  | .loop _ => true
  | _ => false

/-- The expression `x` is a node of the expression, on a way down that goes on below a node only if
`enter` says so. -/
inductive Expr.Occurs (enter : Expr → Bool) (x : Expr) : Expr → Prop where
  | here : Expr.Occurs enter x x
  | inside {e part : Expr} : enter e = true → part ∈ e.parts → Expr.Occurs enter x part →
      Expr.Occurs enter x e

theorem Expr.occurs_iff {enter : Expr → Bool} {x e : Expr} :
    Occurs enter x e ↔ e = x ∨ enter e = true ∧ ∃ part ∈ e.parts, Occurs enter x part := by
  constructor
  · intro h
    cases h with
    | here => exact .inl rfl
    | inside hin hmem hx => exact .inr ⟨hin, _, hmem, hx⟩
  · rintro (rfl | ⟨hin, part, hmem, hx⟩)
    · exact .here
    · exact .inside hin hmem hx

theorem Expr.sizeOf_part {e part : Expr} (h : part ∈ e.parts) : sizeOf part < sizeOf e := by
  cases e with
  | absent | empty | var | string | integer | float | bool => cases h
  | block es | list es | call path es =>
    have := List.sizeOf_lt_of_mem (show part ∈ es from h)
    simp only [Expr.block.sizeOf_spec, Expr.list.sizeOf_spec, Expr.call.sizeOf_spec]
    omega
  | map es =>
    obtain ⟨entry, hentry, hpart⟩ := List.mem_filterMap.1 (show part ∈ es.filterMap Entry.value? from h)
    have := List.sizeOf_lt_of_mem hentry
    cases entry with
    | blank => cases hpart
    | field key e =>
      cases hpart
      simp only [Entry.field.sizeOf_spec, Expr.map.sizeOf_spec] at this ⊢
      omega
  | assign name e | loop e | ret e | brk e =>
    obtain rfl := List.mem_singleton.1 (show part ∈ [e] from h)
    simp only [Expr.assign.sizeOf_spec, Expr.loop.sizeOf_spec, Expr.ret.sizeOf_spec,
      Expr.brk.sizeOf_spec]
    omega
  | cond test a b =>
    simp only [Expr.parts, List.mem_cons, List.not_mem_nil, or_false] at h
    simp only [Expr.cond.sizeOf_spec]
    obtain rfl | rfl | rfl := h <;> omega

theorem Expr.induction_parts {P : Expr → Prop} (h : ∀ e, (∀ part ∈ e.parts, P part) → P e)
    (e : Expr) : P e :=
  h e fun part _ => induction_parts h part
termination_by sizeOf e
decreasing_by exact sizeOf_part ‹_›

/-- Every break in it lies in the body of one of its loops. -/
def Expr.BreakClosed (e : Expr) : Prop := ∀ a, ¬ Occurs (fun e => !e.isLoop) (.brk a) e

def Expr.HasReturn (e : Expr) : Prop := ∃ a, Occurs (fun _ => true) (.ret a) e

def Expr.HasAssignment (e : Expr) : Prop := ∃ name a, Occurs (fun _ => true) (.assign name a) e

theorem Expr.HasReturn.inside {e part : Expr} (h : part.HasReturn) (hmem : part ∈ e.parts) :
    e.HasReturn := by
  obtain ⟨a, ha⟩ := h
  exact ⟨a, .inside rfl hmem ha⟩

theorem Expr.HasAssignment.inside {e part : Expr} (h : part.HasAssignment) (hmem : part ∈ e.parts) :
    e.HasAssignment := by
  obtain ⟨name, a, ha⟩ := h
  exact ⟨name, a, .inside rfl hmem ha⟩

theorem Expr.BreakClosed.part {e part : Expr} (h : e.BreakClosed) (hloop : e.isLoop = false)
    (hmem : part ∈ e.parts) : part.BreakClosed := by
  intro a ha
  refine h a (.inside ?_ hmem ha)
  rw [hloop]
  rfl

theorem Expr.BreakClosed.loop (body : Expr) : (Expr.loop body).BreakClosed := by
  intro a ha
  cases ha with
  | inside hin => cases hin

theorem Expr.BreakClosed.node {e : Expr} (hbrk : ∀ a, e ≠ .brk a)
    (hparts : ∀ part ∈ e.parts, part.BreakClosed) : e.BreakClosed := by
  intro a ha
  cases ha with
  | here => exact hbrk a rfl
  | inside _ hmem hx => exact hparts _ hmem a hx

/-! ## What an expression can stop with -/

/-- The nodes that a stop of the expression takes: a return needs a return, and a break one that is
in no loop. -/
inductive Expr.Emits (e : Expr) : Stop → Prop where
  | ret {v : Value} : e.HasReturn → Expr.Emits e (.ret v)
  | brk {v : Value} : ¬ e.BreakClosed → Expr.Emits e (.brk v)
  | fail {f : Failure} : Expr.Emits e (.fail f)

theorem Expr.Emits.inside {e part : Expr} {x : Stop} (h : part.Emits x) (hloop : e.isLoop = false)
    (hmem : part ∈ e.parts) : e.Emits x := by
  cases h with
  | ret hr => exact .ret (hr.inside hmem)
  | brk hb => exact .brk fun hc => hb (hc.part hloop hmem)
  | fail => exact .fail

namespace Machine

variable {m : Machine σ}

theorem Calls.emits {path : Path} {vs : List Value} {s t : State σ} {x : Stop} (e : Expr)
    (h : Calls m path vs s (.error x) t) : e.Emits x := by
  obtain ⟨v, hv⟩ | ⟨f, -, hf⟩ := h.ends
  · cases hv
  · cases hf
    exact .fail

mutual

theorem Evals.emits {e : Expr} {s t : State σ} {r : Outcome} :
    Evals m e s r t → ∀ x, r = .error x → e.Emits x
  | .absent, x, hx | .emptyBlock, x, hx | .string, x, hx | .integer, x, hx | .float, x, hx
  | .bool, x, hx | .var _, x, hx | .assign _ _, x, hx | .block _, x, hx | .list _, x, hx
  | .map _, x, hx | .loopBreak _, x, hx => by cases hx
  | .empty _, x, hx | .unbound _, x, hx | .assignNowhere _ _, x, hx | .condOther _ _, x, hx
  | .loopFail _, x, hx => by
    cases hx
    exact .fail
  | .assignStop he, x, hx => (he.emits x hx).inside rfl (List.mem_singleton_self _)
  | .blockStop hes, x, hx | .listStop hes, x, hx | .mapStop hes, x, hx | .callStop hes, x, hx => by
    cases hx
    obtain ⟨e, hmem, he⟩ := hes.emits _ rfl
    exact he.inside rfl hmem
  | .call _ hc, x, hx => by
    subst hx
    exact hc.emits _
  | .condTrue _ ha, x, hx => (ha.emits x hx).inside rfl (by simp [Expr.parts])
  | .condFalse _ hb, x, hx => (hb.emits x hx).inside rfl (by simp [Expr.parts])
  | .condStop ht, x, hx => (ht.emits x hx).inside rfl (List.mem_cons_self ..)
  | .loopAgain _ hl, x, hx => hl.emits x hx
  -- a break ends here, so that only returns remain to be looked for below the loop
  | .loopReturn hb, x, hx => by
    cases hx
    cases hb.emits _ rfl with
    | ret hr => exact .ret (hr.inside (List.mem_singleton_self _))
  | .ret _, x, hx => by
    cases hx
    exact .ret ⟨_, .here⟩
  | .retStop he, x, hx => (he.emits x hx).inside rfl (List.mem_singleton_self _)
  | .brk _, x, hx => by
    cases hx
    exact .brk fun hc => hc _ .here
  | .brkStop he, x, hx => (he.emits x hx).inside rfl (List.mem_singleton_self _)

theorem InOrder.emits {es : List Expr} {s t : State σ} {r : Except Stop (List Value)} :
    InOrder m es s r t → ∀ x, r = .error x → ∃ e ∈ es, e.Emits x
  | .nil, x, hx | .cons _ _, x, hx => by cases hx
  | .later _ hes, x, hx => by
    obtain ⟨e, hmem, he⟩ := hes.emits x hx
    exact ⟨e, List.mem_cons_of_mem _ hmem, he⟩
  | .stop he, x, hx => by
    cases hx
    exact ⟨_, List.mem_cons_self .., he.emits _ rfl⟩

end

end Machine

/-! ## Failures for something out of place -/

/-- The failure stems from a return, a break or an assignment out of place. -/
def Failure.Misplaced (f : Failure) : Prop := ∃ what, f.cause = some (.controlFlow what)

@[simp] theorem Failure.misplaced_wrap (f : Failure) (l : Layer) :
    (f.wrap l).Misplaced ↔ f.Misplaced := .rfl

@[simp] theorem Failure.misplaced_locate (f : Failure) (stack : List Path) :
    (f.locate stack).Misplaced ↔ f.Misplaced := by
  unfold Failure.locate
  split <;> rfl

@[simp] theorem Failure.misplaced_ofCause (c : Cause) :
    (Failure.ofCause c).Misplaced ↔ ∃ what, c = .controlFlow what := by
  constructor
  · rintro ⟨what, h⟩
    exact ⟨what, Option.some.inj h⟩
  · rintro ⟨what, rfl⟩
    exact ⟨what, rfl⟩

theorem Failure.category_iff_misplaced (f : Failure) :
    f.category = "ControlFlowError" ↔ f.Misplaced := by
  rw [Failure.category_eq_iff (by decide), Option.bind_eq_some_iff]
  constructor
  · rintro ⟨c, hcause, hc⟩
    cases c with
    | controlFlow what => exact ⟨what, hcause⟩
    | _ => simp [Cause.category?] at hc
  · rintro ⟨what, hcause⟩
    exact ⟨_, hcause, rfl⟩

/-- All function bodies are break-closed. -/
def Registry.BreakClosed (r : Registry) : Prop :=
  ∀ path ps es, r.resolve path = .ok (.defined ps (some es)) → ∀ e ∈ es, e.BreakClosed

theorem Registry.not_misplaced_of_acquire {r : Registry} {path : Path} {held : Held} {c : Cause}
    (h : r.acquire path held = .error c) : ¬ (Failure.ofCause c).Misplaced := by
  obtain rfl | rfl | rfl := Registry.acquire_error h <;> simp

namespace Machine

variable {m : Machine σ}

/-! ## Frames stay where they are -/

theorem viewed_depth (k : Nat) : Viewed fun a b => b = a ∧ a.depth = k where
  lookup := by
    rintro a _ x ⟨rfl, -⟩
    rfl
  insert := by
    rintro ⟨frames⟩ _ x v ⟨rfl, hk⟩
    cases frames with
    | nil => exact .none
    | cons f below => exact .some ⟨rfl, hk⟩

theorem Evals.depth_eq {e : Expr} {s t : State σ} {r : Outcome} (h : Evals m e s r t) :
    t.scopes.depth = s.scopes.depth := by
  obtain ⟨n, hn⟩ := h.complete.exists
  have hrel := (paired m m.traced n).eval (viewed_depth s.scopes.depth) [] s.calls s.calls e s s
    ⟨⟨rfl, rfl⟩, rfl, rfl, World.Same.refl s.world⟩
  rw [show m.tracing m.traced = m from rfl, hn] at hrel
  cases hrel with
  | some hp => exact hp.2.scopes.2

/-- There is a frame to bind in, or nothing to be bound. -/
def Firm (e : Expr) (s : State σ) : Prop := s.scopes.depth ≠ 0 ∨ ¬ e.HasAssignment

theorem firm_push (e : Expr) (s : State σ) (f : Frame) : Firm e (s.push f) :=
  .inl (Nat.succ_ne_zero _)

theorem Firm.part {e part : Expr} {s : State σ} (h : Firm e s) (hmem : part ∈ e.parts) :
    Firm part s :=
  h.imp id fun hn ha => hn (ha.inside hmem)

theorem Firm.after {e e' : Expr} {s t : State σ} {r : Outcome} (h : Firm e s)
    (he : Evals m e' s r t) : Firm e t := by
  unfold Firm
  rw [he.depth_eq]
  exact h

theorem Firm.insert_ne_none {name : String} {e : Expr} {s t : State σ} {r : Outcome} {v : Value}
    (h : Firm (.assign name e) s) (he : Evals m e s r t) : t.scopes.insert? name v ≠ none := by
  obtain hd | hn := h.after he
  · obtain ⟨⟨frames⟩, calls, world⟩ := t
    cases frames with
    | nil => exact absurd rfl hd
    | cons f below => exact nofun
  · exact absurd ⟨name, e, .here⟩ hn

/-! ## Runs -/

/-- No handler that is about to run fails for something out of place. -/
def Spares (m : Machine σ) : Moment σ → Prop
  | .handler id vs w => ∀ x w', Performs m (m.handlers id vs) w (.error x) w' →
      x.category ≠ "ControlFlowError"
  | _ => True

/-- If the run has failed, then not for something out of place. -/
def Placed {α : Type} (r : Except Stop α) : Prop := ∀ f, r = .error (.fail f) → ¬ f.Misplaced

theorem placed_ok {α : Type} {a : α} : Placed (.ok a) := fun _ h => by cases h

theorem placed_fail {α : Type} {f : Failure} (h : ¬ f.Misplaced) :
    Placed (.error (.fail f) : Except Stop α) := by
  intro g hg
  cases hg
  exact h

theorem Placed.stop {α β : Type} {x : Stop} (h : Placed (.error x : Except Stop α)) :
    Placed (.error x : Except Stop β) := by
  intro f hf
  cases hf
  exact h f rfl

mutual

theorem Evals.placed (hm : m.registry.BreakClosed) {e : Expr} {s t : State σ} {r : Outcome} :
    Evals m e s r t → Throughout m (Spares m) (.expr e s) → Firm e s → Placed r
  | .absent, _, _ | .emptyBlock, _, _ | .string, _, _ | .integer, _, _ | .float, _, _
  | .bool, _, _ | .var _, _, _ | .assign _ _, _, _ | .block _, _, _ | .list _, _, _ | .map _, _, _
  | .loopBreak _, _, _ => placed_ok
  | .empty _, _, _ | .unbound _, _, _ => placed_fail (by simp)
  | .condOther _ _, _, _ => placed_fail (by simp [Value.mismatch])
  | .assignNowhere he hi, _, hs => absurd hi (hs.insert_ne_none he)
  | .assignStop he, h, hs => he.placed hm (h.step .assign) (hs.part (List.mem_singleton_self _))
  | .blockStop hes, h, hs => (hes.placed hm (h.step .block) fun e he => hs.part he).stop
  | .listStop hes, h, hs => (hes.placed hm (h.step .list) fun e he => hs.part he).stop
  | .mapStop hes, h, hs => (hes.placed hm (h.step .map) fun e he => hs.part he).stop
  | .call hes hc, h, _ => hc.placed hm (h.step (.call hes))
  | .callStop hes, h, hs => (hes.placed hm (h.step .arguments) fun e he => hs.part he).stop
  | .condTrue ht ha, h, hs =>
    ha.placed hm (h.step (.whenTrue ht)) ((hs.part (by simp [Expr.parts])).after ht)
  | .condFalse ht hb, h, hs =>
    hb.placed hm (h.step (.whenFalse ht)) ((hs.part (by simp [Expr.parts])).after ht)
  | .condStop ht, h, hs => ht.placed hm (h.step .test) (hs.part (List.mem_cons_self ..))
  | .loopAgain hb hl, h, hs => hl.placed hm (h.step (.again hb)) (hs.after hb)
  | .loopReturn _, _, _ | .ret _, _, _ | .brk _, _, _ => fun _ hf => by cases hf
  | .loopFail hb, h, hs => hb.placed hm (h.step .body) (hs.part (List.mem_singleton_self _))
  | .retStop he, h, hs => he.placed hm (h.step .ret) (hs.part (List.mem_singleton_self _))
  | .brkStop he, h, hs => he.placed hm (h.step .brk) (hs.part (List.mem_singleton_self _))

theorem InOrder.placed (hm : m.registry.BreakClosed) {es : List Expr} {s t : State σ}
    {r : Except Stop (List Value)} : InOrder m es s r t → Throughout m (Spares m) (.order es s) →
      (∀ e ∈ es, Firm e s) → Placed r
  | .nil, _, _ | .cons _ _, _, _ => placed_ok
  | .later he hes, h, hs =>
    hes.placed hm (h.step (.tail he)) fun e hmem => (hs e (List.mem_cons_of_mem _ hmem)).after he
  | .stop he, h, hs => (he.placed hm (h.step .head) (hs _ (List.mem_cons_self ..))).stop

theorem Calls.placed (hm : m.registry.BreakClosed) {path : Path} {vs : List Value} {s t : State σ}
    {r : Outcome} : Calls m path vs s r t → Throughout m (Spares m) (.call path vs s) → Placed r
  | .unavailable hc, _ => by
    refine placed_fail ?_
    rw [Failure.misplaced_locate]
    exact Registry.not_misplaced_of_acquire hc
  | .returns _ _, _ => placed_ok
  | .fails hf ha, h => by
    have hx := ha.placed hm (Registry.resolve_of_acquire hf) (h.step (.enter hf)) _ rfl
    refine placed_fail ?_
    rw [Failure.misplaced_locate]
    exact hx

theorem Applies.placed (hm : m.registry.BreakClosed) {path : Path} {name : String} {f : Function}
    {vs : List Value} {s t : State σ} {r : Outcome} : Applies m name f vs s r t →
      m.registry.resolve path = .ok f → Throughout m (Spares m) (.run name f vs s) → Placed r
  | .definedArity _, _, _ | .nativeArity _, _, _ | .unhandled _, _, _ | .imported, _, _ =>
    placed_fail (by simp)
  | .bodyless _, _, _ | .plain _ _, _, _ | .returned _ _, _, _ | .replied _ _, _, _ => placed_ok
  -- the body would have to show a break that is in none of its loops
  | .broke _ hes, hf, _ => by
    obtain ⟨e, hmem, he⟩ := hes.emits _ rfl
    cases he with
    | brk hb => exact absurd (hm path _ _ hf e hmem) hb
  | .failed ha hes, _, h => (hes.placed hm (h.step (.defined ha)) fun e _ => firm_push e s _).stop
  | .refused ha hp, _, h => by
    refine placed_fail ?_
    rw [Failure.misplaced_wrap, ← Failure.category_iff_misplaced]
    exact (h.step (.native ha)).here _ _ hp

end

/-! ## What is shown of the end -/

theorem not_misplaced_of_settle {r : Outcome} {f : Failure} {stack : List Path} (hr : Placed r)
    (hret : ∀ v, r ≠ .error (.ret v)) (hbrk : ∀ v, r ≠ .error (.brk v))
    (h : settle stack r = .error f) : ¬ f.Misplaced := by
  match r, h with
  | .error (.ret v), _ => exact absurd rfl (hret v)
  | .error (.brk v), _ => exact absurd rfl (hbrk v)
  | .error (.fail g), h =>
    cases h
    rw [Failure.misplaced_locate]
    exact hr g rfl

/-- An expression stops with a break only if one of its breaks is in none of its loops, and with a
return only if there is one in it. Where all function bodies are break-closed, evaluating an
expression that is break-closed too and neither returns nor assigns never fails for something out
of place, and neither does a call, unless a handler fails so. -/
theorem break_closed_sound (m : Machine σ) :
    (∀ n e s v t, m.eval n e s = some (.error (.brk v), t) → ¬ e.BreakClosed) ∧
    (∀ n e s v t, m.eval n e s = some (.error (.ret v), t) → e.HasReturn) ∧
    (m.registry.BreakClosed →
      (∀ e w, e.BreakClosed → ¬ e.HasReturn → ¬ e.HasAssignment →
        Throughout m (Spares m) (.expr e (State.start w)) →
        ∀ n f w', m.evaluate n e w = some (.error f, w') → f.category ≠ "ControlFlowError") ∧
      ∀ path vs w, Throughout m (Spares m) (.call path vs (State.start w)) →
        ∀ n f w', m.call n path vs w = some (.error f, w') → f.category ≠ "ControlFlowError") := by
  have hbreak : ∀ n e s v t, m.eval n e s = some (.error (.brk v), t) → ¬ e.BreakClosed := by
    intro n e s v t h
    cases ((sound m n).eval h).emits _ rfl with
    | brk hb => exact hb
  have hreturn : ∀ n e s v t, m.eval n e s = some (.error (.ret v), t) → e.HasReturn := by
    intro n e s v t h
    cases ((sound m n).eval h).emits _ rfl with
    | ret hr => exact hr
  refine ⟨hbreak, hreturn, fun hm => ⟨?_, ?_⟩⟩
  · intro e w hclosed hret hassign hspares n f w' h
    obtain ⟨r, t, hr, hf, -⟩ := apart_eq_some.1 h
    have hplaced := ((sound m n).eval hr).placed hm hspares (.inr hassign)
    rw [Ne, Failure.category_iff_misplaced]
    refine not_misplaced_of_settle hplaced (fun v hv => ?_) (fun v hv => ?_) hf.symm
    · exact hret (hreturn n e _ v t (hv ▸ hr))
    · exact hbreak n e _ v t (hv ▸ hr) hclosed
  · intro path vs w hspares n f w' h
    obtain ⟨r, t, hr, hf, -⟩ := apart_eq_some.1 h
    have hcalls := (sound m n).call hr
    rw [Ne, Failure.category_iff_misplaced]
    obtain ⟨v, rfl⟩ | ⟨x, -, rfl⟩ := hcalls.ends
    · cases hf
    · exact not_misplaced_of_settle (hcalls.placed hm hspares) nofun nofun hf.symm

/-! An instance: `f` breaks and returns inside a loop after it has bound a name, and calls a native
function whose handler fails. -/

def looping : Machine Unit where
  registry := ⟨[("m", ⟨"m", [
    ("f", .defined [] (some [.assign "x" (.loop (.brk (.bool true))),
      .loop (.cond (.var "x") (.ret (.call ⟨"m", "g"⟩ [])) (.brk .absent))])),
    ("g", .native 0 0 true)], []⟩)]⟩
  handlers := fun _ _ => .fail "gone"
  traced := false

theorem looping_closed : looping.registry.BreakClosed := by
  intro path ps es h
  have hes : es = [.assign "x" (.loop (.brk (.bool true))),
      .loop (.cond (.var "x") (.ret (.call ⟨"m", "g"⟩ [])) (.brk .absent))] := by
    simp only [looping, Registry.resolve, Registry.module?, Library.function?, Table.find?] at h
    split_ifs at h
    simp only [Table.find?] at h
    split_ifs at h <;> cases h
    rfl
  subst hes
  refine List.forall_mem_cons.2 ⟨.node ?_ ?_, List.forall_mem_singleton.2 (.loop _)⟩
  · intro a ha
    cases ha
  · exact List.forall_mem_singleton.2 (.loop _)

theorem looping_spares (a : Moment Unit) : Throughout looping (Spares looping) a := by
  intro b _
  cases b with
  | handler id vs w =>
    intro x w' hx
    cases hx
    decide
  | _ => trivial

theorem break_closed_sound_looping :
    let e : Expr := .loop (.brk (.call ⟨"m", "f"⟩ []))
    looping.registry.BreakClosed ∧ e.BreakClosed ∧ ¬ e.HasReturn ∧ ¬ e.HasAssignment ∧
      (∃ f w, looping.evaluate 20 e (World.start ()) = some (.error f, w) ∧
        f.category = "NativeError") ∧
      ∀ n f w, looping.evaluate n e (World.start ()) = some (.error f, w) →
        f.category ≠ "ControlFlowError" := by
  intro e
  have hclosed : e.BreakClosed := .loop _
  have hret : ¬ e.HasReturn := by
    rintro ⟨a, ha⟩
    simp [e, Expr.occurs_iff (e := .loop _), Expr.occurs_iff (e := .brk _),
      Expr.occurs_iff (e := .call _ _), Expr.parts] at ha
  have hassign : ¬ e.HasAssignment := by
    rintro ⟨name, a, ha⟩
    simp [e, Expr.occurs_iff (e := .loop _), Expr.occurs_iff (e := .brk _),
      Expr.occurs_iff (e := .call _ _), Expr.parts] at ha
  obtain ⟨hevaluate, -⟩ := (break_closed_sound looping).2.2 looping_closed
  exact ⟨looping_closed, hclosed, hret, hassign, ⟨_, _, rfl, by decide⟩,
    hevaluate e _ hclosed hret hassign (looping_spares _)⟩

end Machine

end Arbor
