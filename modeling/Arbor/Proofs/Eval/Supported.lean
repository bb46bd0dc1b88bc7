import Arbor.Proofs.Eval.BreakClosed
import Arbor.Proofs.Tree.Grammar

/-!
Trees that come from documents can be evaluated.

A host may build trees with nodes that have nothing in them, and evaluating such a node is refused.
No document is read as such a tree (`Document.Denotes.solid`). Where all functions were read from
documents, the failures for an operation that is not supported are therefore those of calls: of an
imported function, or of a native one without a handler (`Evals.supported`).

Handlers are told of the failures of what they call and evaluate, and may pass them on.
`Action.FailsAs` says that they make up no others.
-/

set_option autoImplicit false

namespace Arbor

variable {σ α β : Type}

/-! ## Trees without empty nodes -/

/-- No node of the expression is empty. -/
def Expr.Solid (e : Expr) : Prop := ∀ type, ¬ Occurs (fun _ => true) (.empty type) e

theorem Expr.Solid.part {e part : Expr} (h : e.Solid) (hmem : part ∈ e.parts) : part.Solid :=
  fun type ht => h type (.inside rfl hmem ht)

theorem Expr.Solid.node {e : Expr} (hne : ∀ type, e ≠ .empty type)
    (hparts : ∀ part ∈ e.parts, part.Solid) : e.Solid := by
  intro type ht
  cases ht with
  | here => exact hne type rfl
  | inside _ hmem hx => exact hparts _ hmem type hx

theorem Expr.not_solid_empty (type : NodeType) : ¬ (Expr.empty type).Solid := fun h => h type .here

theorem Module.mem_definitions {m : Module} {definition : Definition} :
    definition ∈ m.definitions ↔ .define definition ∈ m.items := by
  unfold Module.definitions
  rw [List.mem_filterMap]
  constructor
  · rintro ⟨item, hitem, hdef⟩
    cases item with
    | define definition' =>
      cases hdef
      exact hitem
    | exports names => cases hdef
    | imports module names => cases hdef
  · exact fun h => ⟨_, h, rfl⟩

namespace Document

mutual

theorem Denotes.solid {d : Document} {e : Expr} : d.Denotes e → e.Solid
  | .var _ _ | .string _ _ | .integer _ _ _ | .float _ _ _ | .bool _ _ => .node nofun nofun
  | .block _ _ hes => .node nofun hes.solid
  | .list _ _ hes => .node nofun hes.solid
  | .call _ _ _ _ _ hes => .node nofun hes.solid
  | .map _ _ hes => .node nofun hes.solid
  | .assign _ _ _ he => .node nofun (List.forall_mem_singleton.2 he.solid)
  | .loop _ _ he => .node nofun (List.forall_mem_singleton.2 he.solid)
  | .ret _ _ he => .node nofun (List.forall_mem_singleton.2 he.solid)
  | .brk _ _ he => .node nofun (List.forall_mem_singleton.2 he.solid)
  -- a missing argument is no expression at all, which is something else than an empty node
  | .retNothing _ _ => .node nofun (List.forall_mem_singleton.2 (.node nofun nofun))
  | .brkNothing _ _ => .node nofun (List.forall_mem_singleton.2 (.node nofun nofun))
  | .cond _ _ ht _ ha _ hb =>
    .node nofun (List.forall_mem_cons.2
      ⟨ht.solid, List.forall_mem_cons.2 ⟨ha.solid, List.forall_mem_singleton.2 hb.solid⟩⟩)

theorem DenotesAll.solid {ds : List Document} {es : List Expr} :
    DenotesAll ds es → ∀ e ∈ es, e.Solid
  | .nil => nofun
  | .cons he hes => List.forall_mem_cons.2 ⟨he.solid, hes.solid⟩

theorem DenotesEntries.solid {ds : List Document} {es : List Entry} :
    DenotesEntries ds es → ∀ e ∈ es.filterMap Entry.value?, e.Solid
  | .nil => nofun
  | .cons _ _ he hes => List.forall_mem_cons.2 ⟨he.solid, hes.solid⟩

end

theorem IsBody.solid {e : Expr} {body : List Expr} (h : IsBody e body) (he : e.Solid) :
    ∀ x ∈ body, x.Solid := by
  cases h with
  | block es => exact fun x hx => he.part hx
  | single => exact List.forall_mem_singleton.2 he

theorem DenotesItem.solid {d : Document} {definition : Definition} {body : List Expr}
    (h : d.DenotesItem (.define definition)) (hbody : definition.body = some body) :
    ∀ e ∈ body, e.Solid := by
  cases h with
  | define _ _ _ _ he hb =>
    cases hbody
    exact hb.solid he.solid
  | bodyless => cases hbody

theorem DenotesModule.solid {d : Document} {m : Module} (h : d.DenotesModule m)
    {definition : Definition} (hmem : definition ∈ m.definitions) {body : List Expr}
    (hbody : definition.body = some body) : ∀ e ∈ body, e.Solid := by
  cases h with
  | items _ hds hitems =>
    rw [Module.mem_definitions] at hmem
    clear hds
    induction hitems with
    | nil => cases hmem
    | cons hd _ ih =>
      cases hmem with
      | head => exact hd.solid hbody
      | tail _ hrest => exact ih hrest

end Document

/-! ## Functions from documents -/

/-- Every defined function is a definition of a module that was read from a document. -/
def Registry.FromDocuments (r : Registry) : Prop :=
  ∀ path ps body, r.resolve path = .ok (.defined ps body) →
    ∃ format bytes m definition, Format.readModule format bytes = .ok m ∧
      definition ∈ m.definitions ∧ definition.parameters = ps ∧ definition.body = body

theorem Format.denotes_of_readModule {format : Format} {bytes : List UInt8} {m : Module}
    (h : format.readModule bytes = .ok m) : ∃ d : Document, d.DenotesModule m := by
  cases hd : format.document bytes with
  | error e =>
    simp only [Format.readModule, hd] at h
    cases h
  | ok d =>
    simp only [Format.readModule, hd] at h
    exact ⟨d, Document.toModule_eq_ok_iff.1 (Except.mapError_eq_ok_iff.1 h)⟩

theorem Format.denotes_of_readExpr {format : Format} {bytes : List UInt8} {e : Expr}
    (h : format.readExpr bytes = .ok e) : ∃ d : Document, d.Denotes e := by
  cases hd : format.document bytes with
  | error x =>
    simp only [Format.readExpr, hd] at h
    cases h
  | ok d =>
    simp only [Format.readExpr, hd] at h
    exact ⟨d, Document.toExpr_eq_ok_iff.1 (Except.mapError_eq_ok_iff.1 h)⟩

/-! Loading a module that was read keeps this, and so does a module of the host's own functions. -/

theorem Library.defined_of_addItem {l : Library} {i : Item} {name : String} {ps : List String}
    {body : Option (List Expr)} (h : (l.addItem i).function? name = some (.defined ps body)) :
    l.function? name = some (.defined ps body) ∨
      ∃ definition, i = .define definition ∧ definition.parameters = ps ∧ definition.body = body := by
  cases i with
  | define definition =>
    rw [Library.addItem, Library.function?_add] at h
    split at h
    · cases h
      exact .inr ⟨definition, rfl, rfl, rfl⟩
    · exact .inl h
  | exports names =>
    rw [Library.addItem] at h
    refine .inl ?_
    induction names generalizing l with
    | nil => exact h
    | cons n names ih => exact ih (l := l.exportName n) h
  | imports module names =>
    rw [Library.addItem] at h
    refine .inl ?_
    induction names generalizing l with
    | nil => exact h
    | cons n names ih =>
      have hadd := ih (l := l.add n (.imported ⟨module, n⟩)) h
      rw [Library.function?_add] at hadd
      split at hadd
      · cases hadd
      · exact hadd

theorem Library.defined_of_ofModule {m : Module} {library name : String} {ps : List String}
    {body : Option (List Expr)}
    (h : (Library.ofModule library (some m)).function? name = some (.defined ps body)) :
    ∃ definition ∈ m.definitions, definition.parameters = ps ∧ definition.body = body := by
  suffices ∀ (items : List Item) (l : Library),
      (items.foldl Library.addItem l).function? name = some (.defined ps body) →
      l.function? name = some (.defined ps body) ∨ ∃ definition, .define definition ∈ items ∧
        definition.parameters = ps ∧ definition.body = body by
    obtain hempty | ⟨definition, hmem, hdef⟩ := this m.items _ h
    · cases hempty
    · exact ⟨definition, Module.mem_definitions.2 hmem, hdef⟩
  intro items
  induction items with
  | nil => exact fun l hl => .inl hl
  | cons i items ih =>
    intro l hl
    obtain hi | ⟨definition, hmem, hdef⟩ := ih _ hl
    · obtain hold | ⟨definition, rfl, hdef⟩ := Library.defined_of_addItem hi
      · exact .inl hold
      · exact .inr ⟨definition, List.mem_cons_self .., hdef⟩
    · exact .inr ⟨definition, List.mem_cons_of_mem _ hmem, hdef⟩

theorem Registry.resolve_register {r : Registry} {l : Library} {path : Path} {f : Function}
    (h : (r.register l).resolve path = .ok f) :
    l.function? path.item = some f ∨ r.resolve path = .ok f := by
  obtain ⟨l', hl, hf⟩ := Registry.resolve_eq_ok_iff.1 h
  rw [Registry.module?_register] at hl
  split at hl
  · cases hl
    exact .inl hf
  · exact .inr (Registry.resolve_eq_ok_iff.2 ⟨l', hl, hf⟩)

theorem Registry.fromDocuments_empty : Registry.empty.FromDocuments := by
  intro path ps body h
  cases h

theorem Registry.FromDocuments.load {r : Registry} (h : r.FromDocuments) {format : Format}
    {bytes : List UInt8} {m : Module} (hm : format.readModule bytes = .ok m) (name : String) :
    (r.register (Library.ofModule name (some m))).FromDocuments := by
  intro path ps body hf
  obtain hl | hr := Registry.resolve_register hf
  · obtain ⟨definition, hmem, hdef⟩ := Library.defined_of_ofModule hl
    exact ⟨format, bytes, m, definition, hm, hmem, hdef⟩
  · exact h path ps body hr

theorem Registry.FromDocuments.register {r : Registry} (h : r.FromDocuments) {l : Library}
    (hl : ∀ name ps body, l.function? name ≠ some (.defined ps body)) :
    (r.register l).FromDocuments := by
  intro path ps body hf
  obtain hd | hr := Registry.resolve_register hf
  · exact absurd hd (hl _ ps body)
  · exact h path ps body hr

theorem Registry.FromDocuments.solid {r : Registry} (h : r.FromDocuments) {path : Path}
    {ps : List String} {es : List Expr} (hf : r.resolve path = .ok (.defined ps (some es))) :
    ∀ e ∈ es, e.Solid := by
  obtain ⟨format, bytes, m, definition, hm, hmem, -, hbody⟩ := h path ps (some es) hf
  obtain ⟨d, hd⟩ := Format.denotes_of_readModule hm
  exact hd.solid hmem hbody

/-! ## Failures for an operation that is not supported -/

theorem Failure.category_iff_unsupported (f : Failure) :
    f.category = "UnsupportedOperation" ↔ ∃ op, f.cause = some (.unsupported op) := by
  rw [Failure.category_eq_iff (by decide), Option.bind_eq_some_iff]
  constructor
  · rintro ⟨c, hcause, hc⟩
    cases c with
    | unsupported op => exact ⟨op, hcause⟩
    | _ => simp [Cause.category?] at hc
  · rintro ⟨op, hcause⟩
    exact ⟨_, hcause, rfl⟩

/-- The failure, if it is for an operation that is not supported, is for the call of an imported
function of the registry or of a native one that has no handler. -/
def Registry.Admits (r : Registry) (f : Failure) : Prop :=
  f.category = "UnsupportedOperation" →
    (∃ path target, r.resolve path = .ok (.imported target) ∧
      f.cause = some (.unsupported (.callImported target))) ∨
    ∃ path id arity, r.resolve path = .ok (.native id arity false) ∧
      f.cause = some (.unsupported (.callWithoutHandler path.item))

namespace Registry

variable {r : Registry}

theorem admits_of_cause {f g : Failure} (hcause : g.cause = f.cause) (h : r.Admits f) :
    r.Admits g := by
  intro hg
  rw [Failure.category_iff_unsupported, hcause] at hg
  rw [hcause]
  exact h ((Failure.category_iff_unsupported f).2 hg)

theorem Admits.wrap {f : Failure} (h : r.Admits f) (l : Layer) : r.Admits (f.wrap l) :=
  admits_of_cause (f := f) rfl h

theorem Admits.locate {f : Failure} (h : r.Admits f) (stack : List Path) :
    r.Admits (f.locate stack) := by
  refine admits_of_cause ?_ h
  unfold Failure.locate
  split <;> rfl

theorem admits_ofCause {c : Cause} (h : ∀ op, c ≠ .unsupported op) : r.Admits (.ofCause c) := by
  intro hc
  obtain ⟨op, hop⟩ := (Failure.category_iff_unsupported _).1 hc
  exact absurd (Option.some.inj hop) (h op)

theorem admits_acquire {path : Path} {held : Held} {c : Cause}
    (h : r.acquire path held = .error c) : r.Admits (.ofCause c) := by
  refine admits_ofCause ?_
  obtain rfl | rfl | rfl := Registry.acquire_error h <;> nofun

end Registry

/-! ## Handlers -/

/-- The handler fails only in ways that `F` allows, as long as it is told only of such failures by
its calls and by its evaluations of expressions of which `S` holds. What it leaves behind in the
state of the host, and relies on there, is `I`. -/
def Action.FailsAs (I : σ → Prop) (S : Expr → Prop) (F : Failure → Prop) : Action σ → Prop
  | .reply _ => True
  | .refuse x => F x
  | .get next => ∀ host, I host → (next host).FailsAs I S F
  | .put host next => I host ∧ next.FailsAs I S F
  | .list vs next => ∀ h, (next (.list h vs)).FailsAs I S F
  | .object fs next => ∀ h, (next (.object h fs)).FailsAs I S F
  | .call _ _ next => ∀ r, (∀ x, r = .error x → F x) → (next r).FailsAs I S F
  | .evaluate e next => ∀ r, (S e → ∀ x, r = .error x → F x) → (next r).FailsAs I S F
  | .acquire _ next => ∀ r, (∀ c, r = .error c → F (.ofCause c)) → (next r).FailsAs I S F
  | .release _ next => next.FailsAs I S F

namespace Machine

variable {m : Machine σ} {I : σ → Prop}

/-- No handler makes up a failure for an operation that is not supported. -/
def Supports (m : Machine σ) (I : σ → Prop) : Prop :=
  ∀ id vs, (m.handlers id vs).FailsAs I Expr.Solid m.registry.Admits

/-- The end of a run: the state of the host is as handlers rely on it, and if `P` holds of what was
run, a failure is one that the registry admits. -/
structure Admitted (m : Machine σ) (I : σ → Prop) (P : Prop) (r : Except Stop α) (w : World σ) :
    Prop where
  host : I w.host
  failure : P → ∀ x, r = .error (.fail x) → m.registry.Admits x

namespace Admitted

variable {P Q : Prop} {w : World σ}

theorem plain {r : Except Stop α} (h : I w.host) (hr : ∀ x, r ≠ .error (.fail x)) :
    Admitted m I P r w :=
  ⟨h, fun _ x hx => absurd hx (hr x)⟩

theorem fail {x : Failure} (h : I w.host) (hx : P → m.registry.Admits x) :
    Admitted (α := α) m I P (.error (.fail x)) w := by
  refine ⟨h, fun hp y hy => ?_⟩
  cases hy
  exact hx hp

theorem raise {c : Cause} (h : I w.host) (hc : ∀ op, c ≠ .unsupported op) :
    Admitted (α := α) m I P (Stop.raise c) w :=
  fail h fun _ => Registry.admits_ofCause hc

theorem imp {r : Except Stop α} (h : Admitted m I P r w) (hq : Q → P) : Admitted m I Q r w :=
  ⟨h.host, fun hQ => h.failure (hq hQ)⟩

theorem stop {x : Stop} (h : Admitted m I P (.error x : Except Stop α) w) (hq : Q → P) :
    Admitted m I Q (.error x : Except Stop β) w := by
  refine ⟨h.host, fun hQ y hy => h.failure (hq hQ) y ?_⟩
  cases hy
  rfl

theorem settle {r : Outcome} (h : Admitted m I P r w) (hP : P) (stack : List Path) :
    ∀ x, settle stack r = .error x → m.registry.Admits x := by
  intro x hx
  match r, h, hx with
  | .error (.ret v), _, hx =>
    cases hx
    exact (Registry.admits_ofCause (c := .controlFlow .returned) nofun).locate stack
  | .error (.brk v), _, hx =>
    cases hx
    exact (Registry.admits_ofCause (c := .controlFlow .broke) nofun).locate stack
  | .error (.fail f), h, hx =>
    cases hx
    exact (h.failure hP f rfl).locate stack

end Admitted

/-! ## Runs -/

mutual

/-- Empty nodes can make an evaluation fail only where they stand in the expression itself: what the
functions that it calls do is settled by the registry. -/
theorem Evals.supported (hr : m.registry.FromDocuments) (hm : m.Supports I) {e : Expr}
    {s t : State σ} {r : Outcome} :
    Evals m e s r t → I s.world.host → Admitted m I e.Solid r t.world
  | .absent, hs | .emptyBlock, hs | .string, hs | .integer, hs | .float, hs
  | .bool, hs | .var _, hs => .plain hs nofun
  | .empty _, hs => .fail hs fun he => absurd he (Expr.not_solid_empty _)
  | .unbound _, hs => .raise hs nofun
  | .assign h _, hs => .plain (h.supported hr hm hs).host nofun
  | .assignNowhere h _, hs => .raise (h.supported hr hm hs).host nofun
  | .assignStop h, hs => (h.supported hr hm hs).imp fun he => he.part (List.mem_singleton_self _)
  | .block h, hs => .plain (h.supported hr hm hs).host nofun
  | .blockStop h, hs => (h.supported hr hm hs).stop fun he _ hx => he.part hx
  | .list h, hs => .plain (h.supported hr hm hs).host nofun
  | .listStop h, hs => (h.supported hr hm hs).stop fun he _ hx => he.part hx
  | .map h, hs => .plain (h.supported hr hm hs).host nofun
  | .mapStop h, hs => (h.supported hr hm hs).stop fun he _ hx => he.part hx
  | .call h hc, hs => (hc.supported hr hm (h.supported hr hm hs).host).imp fun _ => trivial
  | .callStop h, hs => (h.supported hr hm hs).stop fun he _ hx => he.part hx
  | .condTrue ht ha, hs =>
    (ha.supported hr hm (ht.supported hr hm hs).host).imp fun he => he.part (by simp [Expr.parts])
  | .condFalse ht hb, hs =>
    (hb.supported hr hm (ht.supported hr hm hs).host).imp fun he => he.part (by simp [Expr.parts])
  | .condOther ht _, hs => .raise (ht.supported hr hm hs).host nofun
  | .condStop ht, hs => (ht.supported hr hm hs).imp fun he => he.part (List.mem_cons_self ..)
  | .loopAgain hb hl, hs => hl.supported hr hm (hb.supported hr hm hs).host
  | .loopBreak hb, hs => .plain (hb.supported hr hm hs).host nofun
  | .loopReturn hb, hs => .plain (hb.supported hr hm hs).host nofun
  | .loopFail hb, hs => (hb.supported hr hm hs).imp fun he => he.part (List.mem_singleton_self _)
  | .ret h, hs => .plain (h.supported hr hm hs).host nofun
  | .retStop h, hs => (h.supported hr hm hs).imp fun he => he.part (List.mem_singleton_self _)
  | .brk h, hs => .plain (h.supported hr hm hs).host nofun
  | .brkStop h, hs => (h.supported hr hm hs).imp fun he => he.part (List.mem_singleton_self _)

theorem InOrder.supported (hr : m.registry.FromDocuments) (hm : m.Supports I) {es : List Expr}
    {s t : State σ} {r : Except Stop (List Value)} :
    InOrder m es s r t → I s.world.host → Admitted m I (∀ e ∈ es, e.Solid) r t.world
  | .nil, hs => .plain hs nofun
  | .cons h hes, hs => .plain (hes.supported hr hm (h.supported hr hm hs).host).host nofun
  | .later h hes, hs =>
    (hes.supported hr hm (h.supported hr hm hs).host).imp fun he => (List.forall_mem_cons.1 he).2
  | .stop h, hs => (h.supported hr hm hs).stop fun he => (List.forall_mem_cons.1 he).1

theorem Calls.supported (hr : m.registry.FromDocuments) (hm : m.Supports I) {path : Path}
    {vs : List Value} {s t : State σ} {r : Outcome} :
    Calls m path vs s r t → I s.world.host → Admitted m I True r t.world
  | .unavailable hc, hs => .fail hs fun _ => (Registry.admits_acquire hc).locate _
  | .returns hf ha, hs => by
    have h := ha.supported hr hm (Registry.resolve_of_acquire hf) rfl (by rwa [enter_host])
    refine .plain ?_ nofun
    rw [leave_host]
    exact h.host
  | .fails hf ha, hs => by
    have h := ha.supported hr hm (Registry.resolve_of_acquire hf) rfl (by rwa [enter_host])
    refine .fail ?_ fun _ => (h.failure trivial _ rfl).locate _
    rw [leave_host]
    exact h.host

theorem Applies.supported (hr : m.registry.FromDocuments) (hm : m.Supports I) {path : Path}
    {name : String} {f : Function} {vs : List Value} {s t : State σ} {r : Outcome} :
    Applies m name f vs s r t → m.registry.resolve path = .ok f → path.item = name →
      I s.world.host → Admitted m I True r t.world
  | .definedArity _, _, _, hs | .nativeArity _, _, _, hs => .raise hs nofun
  | .bodyless _, _, _, hs => .plain hs nofun
  | .plain _ h, _, _, hs => .plain (h.supported hr hm hs).host nofun
  | .returned _ h, _, _, hs => .plain (h.supported hr hm hs).host nofun
  | .broke _ h, _, _, hs => .raise (h.supported hr hm hs).host nofun
  | .failed _ h, hf, _, hs => (h.supported hr hm hs).stop fun _ => hr.solid hf
  | .unhandled _, hf, hname, hs => .fail hs fun _ _ => .inr ⟨path, _, _, hf, hname ▸ rfl⟩
  | .imported, hf, _, hs => .fail hs fun _ _ => .inl ⟨path, _, hf, rfl⟩
  | .replied _ hp, _, _, hs => .plain (hp.supported hr hm (hm _ _) hs).1 nofun
  | .refused _ hp, _, _, hs =>
    have h := hp.supported hr hm (hm _ _) hs
    .fail h.1 fun _ => (h.2 _ rfl).wrap _

theorem Performs.supported (hr : m.registry.FromDocuments) (hm : m.Supports I) {a : Action σ}
    {w w' : World σ} {r : Except Failure Value} :
    Performs m a w r w' → a.FailsAs I Expr.Solid m.registry.Admits → I w.host →
      I w'.host ∧ ∀ x, r = .error x → m.registry.Admits x
  | .reply, _, hw => ⟨hw, fun _ hx => by cases hx⟩
  | .refuse, ha, hw => by
    refine ⟨hw, fun x hx => ?_⟩
    cases hx
    exact ha
  | .get h, ha, hw => h.supported hr hm (ha _ hw) hw
  | .put h, ha, _ => h.supported hr hm ha.2 ha.1
  | .list h, ha, hw => h.supported hr hm (ha _) hw
  | .object h, ha, hw => h.supported hr hm (ha _) hw
  | .call hc h, ha, hw =>
    have hx := hc.supported hr hm hw
    h.supported hr hm (ha _ (hx.settle trivial _)) hx.host
  | .evaluate he h, ha, hw =>
    have hx := he.supported hr hm hw
    h.supported hr hm (ha _ fun hsolid => hx.settle hsolid _) hx.host
  | .acquire _ h, ha, hw => h.supported hr hm (ha _ fun _ hc => by cases hc) hw
  | .acquireRefused hc h, ha, hw => by
    refine h.supported hr hm (ha _ fun c hc' => ?_) hw
    cases hc'
    exact Registry.admits_acquire hc
  | .release h, ha, hw => h.supported hr hm ha hw

end

/-- What was read from a document, run on functions that were read from documents, fails for an
operation that is not supported only where it calls an imported function or a native one that has no
handler. Nothing in it is refused for being empty or of the wrong type. -/
theorem documents_evaluable (m : Machine σ) (I : σ → Prop) (hr : m.registry.FromDocuments)
    (hm : m.Supports I) (w : World σ) (hw : I w.host) :
    (∀ (format : Format) (bytes : List UInt8) (e : Expr), format.readExpr bytes = .ok e →
      ∀ n f w', m.evaluate n e w = some (.error f, w') → m.registry.Admits f) ∧
    ∀ path vs n f w', m.call n path vs w = some (.error f, w') → m.registry.Admits f := by
  constructor
  · intro format bytes e he n f w' h
    obtain ⟨d, hd⟩ := Format.denotes_of_readExpr he
    obtain ⟨r, t, hrun, hf, -⟩ := apart_eq_some.1 h
    exact (((sound m n).eval hrun).supported hr hm hw).settle hd.solid _ f hf.symm
  · intro path vs n f w' h
    obtain ⟨r, t, hrun, hf, -⟩ := apart_eq_some.1 h
    exact (((sound m n).call hrun).supported hr hm hw).settle trivial _ f hf.symm

/-! An instance: the handler of `host.relay` calls `m.f`, which calls `m.g`, an import that fails; the
handler passes the failure on. -/

/-- The document of the module `m`. -/
def relayedText : String :=
  "\x7b\"type\":\"Module\",\"items\":[\x7b\"type\":\"Import\",\"module\":\"n\",\"items\":[\"g\"]\x7d," ++
  "\x7b\"type\":\"FunctionDefinition\",\"name\":\"f\",\"body\":" ++
  "\x7b\"type\":\"FunctionCall\",\"path\":\x7b\"module\":\"m\",\"item\":\"g\"\x7d\x7d\x7d]\x7d"

def relayed : Module :=
  ⟨[.imports "n" ["g"], .define ⟨"f", [], some [.call ⟨"m", "g"⟩ []]⟩]⟩

set_option maxRecDepth 10000 in
theorem readModule_relayed : Format.json.readModule (Text.bytes relayedText) = .ok relayed := by
  have hd : Format.json.document (Text.bytes relayedText) = .ok (.object [
      ("items", .list [
        .object [("items", .list [.string "g"]), ("module", .string "n"), ("type", .string "Import")],
        .object [
          ("body", .object [
            ("path", .object [("item", .string "g"), ("module", .string "m")]),
            ("type", .string "FunctionCall")]),
          ("name", .string "f"), ("type", .string "FunctionDefinition")]]),
      ("type", .string "Module")]) := by
    have htext : String.ofList (_ ++ _ ++ _) = relayedText :=
      String.ofList_append.trans (congrArg (· ++ _) String.ofList_append)
    rw [← htext]
    exact Format.document_of_parse rfl
  exact Format.readModule_of_document hd rfl

def relay : Machine Unit where
  registry := (Registry.empty.register ((Library.empty "host").add "relay" (.native 0 0 true))).register
    (Library.ofModule "m" (some relayed))
  handlers := fun _ _ => .call ⟨"m", "f"⟩ [] fun
    | .ok v => .reply v
    | .error x => .refuse x
  traced := false

theorem relay_fromDocuments : relay.registry.FromDocuments := by
  refine Registry.FromDocuments.load ?_ readModule_relayed "m"
  refine Registry.fromDocuments_empty.register fun name ps body h => ?_
  rw [Library.function?_add] at h
  split at h <;> cases h

theorem relay_supports : relay.Supports fun _ => True := by
  intro id vs r hr
  cases r with
  | ok v => trivial
  | error x => exact hr x rfl

theorem documents_evaluable_relay :
    let bytes := Text.bytes
      "\x7b\"type\":\"FunctionCall\",\"path\":\x7b\"module\":\"host\",\"item\":\"relay\"\x7d\x7d"
    let f : Failure := ⟨[.located [⟨"host", "relay"⟩], .native "relay",
      .located [⟨"m", "f"⟩, ⟨"m", "g"⟩]], some (.unsupported (.callImported ⟨"n", "g"⟩))⟩
    ∃ e w', Format.json.readExpr bytes = .ok e ∧
      relay.evaluate 20 e (World.start ()) = some (.error f, w') ∧
      f.category = "UnsupportedOperation" ∧ relay.registry.Admits f := by
  intro bytes f
  have hd : Format.json.document bytes = .ok (.object [
      ("path", .object [("item", .string "relay"), ("module", .string "host")]),
      ("type", .string "FunctionCall")]) :=
    Format.document_of_parse rfl
  have he : Format.json.readExpr bytes = .ok (.call ⟨"host", "relay"⟩ []) :=
    Format.readExpr_of_document hd rfl
  have hrun : relay.evaluate 20 (.call ⟨"host", "relay"⟩ []) (World.start ())
      = some (.error f, World.start ()) := rfl
  refine ⟨_, _, he, hrun, by decide, ?_⟩
  exact (documents_evaluable relay (fun _ => True) relay_fromDocuments relay_supports
    (World.start ()) trivial).1 .json bytes _ he 20 f _ hrun

end Machine

end Arbor
