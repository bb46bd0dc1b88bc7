import Arbor.Proofs.Eval.Agreement

/-!
What an evaluation leaves as it was.

However an evaluation ends, the frames below the top one, the active calls and the functions in use
are those it began with, and the top frame has changed at most at names that the expression itself
assigns to. A call leaves all scopes alone. Handlers are expected to give free what they take into
use, which `Action.Frees` says of their text.
-/

set_option autoImplicit false

namespace Arbor

variable {σ : Type}

/-! ## Functions in use -/

/-- What a function keeps in use while it runs. -/
def Function.locks : Function → Held
  | .native id _ _ => [id]
  | _ => []

theorem Function.acquire_eq {f : Function} {path : Path} {held held' : Held}
    (h : f.acquire path held = .ok held') : held' = f.locks ++ held := by
  cases f with
  | native id arity handled =>
    rw [Function.acquire] at h
    by_cases hid : id ∈ held
    · rw [if_pos hid] at h
      cases h
    · rw [if_neg hid] at h
      cases h
      rfl
  | defined ps body =>
    cases h
    rfl
  | imported target =>
    cases h
    rfl

theorem Registry.acquire_eq {r : Registry} {path : Path} {f : Function} {held held' : Held}
    (h : r.acquire path held = .ok (f, held')) : held' = f.locks ++ held :=
  Function.acquire_eq (Registry.acquire_eq_ok_iff.1 h).2

theorem Function.release_locks (f : Function) (held : Held) : f.release (f.locks ++ held) = held := by
  cases f with
  | native id arity handled => exact List.erase_cons_head id held
  | _ => rfl

theorem Function.release_append {f : Function} {taken : Held} (h : f.locks ⊆ taken) (held : Held) :
    f.release (taken ++ held) = f.release taken ++ held := by
  cases f with
  | native id arity handled => exact List.erase_append_left held (h (List.mem_singleton_self id))
  | _ => rfl

/-- Whatever the handler takes into use, on top of what it has taken already, it gives free before
it ends, and it gives free nothing else. -/
def Action.Frees : Action σ → Held → Prop
  | .reply _, taken => taken = []
  | .refuse _, taken => taken = []
  | .get next, taken => ∀ host, (next host).Frees taken
  | .put _ next, taken => next.Frees taken
  | .list vs next, taken => ∀ h, (next (.list h vs)).Frees taken
  | .object fs next, taken => ∀ h, (next (.object h fs)).Frees taken
  | .call _ _ next, taken => ∀ r, (next r).Frees taken
  | .evaluate _ next, taken => ∀ r, (next r).Frees taken
  | .acquire _ next, taken =>
    (∀ c, (next (.error c)).Frees taken) ∧ ∀ f, (next (.ok f)).Frees (f.locks ++ taken)
  | .release f next, taken => f.locks ⊆ taken ∧ next.Frees (f.release taken)

/-! ## Assigned names -/

mutual

/-- The names that the expression itself assigns to, wherever in it. -/
def Expr.assigned : Expr → List String
  | .assign name e => name :: e.assigned
  | .block es => assignedAll es
  | .list es => assignedAll es
  | .map es => assignedEntries es
  | .call _ es => assignedAll es
  | .cond test a b => test.assigned ++ (a.assigned ++ b.assigned)
  | .loop e => e.assigned
  | .ret e => e.assigned
  | .brk e => e.assigned
  | .absent | .empty _ | .var _ | .string _ | .integer _ | .float _ | .bool _ => []

/-- The names that expressions in a row assign to. -/
def Expr.assignedAll : List Expr → List String
  | [] => []
  | e :: es => e.assigned ++ assignedAll es

/-- The names that the entries of a map assign to. -/
def Expr.assignedEntries : List Entry → List String
  | [] => []
  | .blank :: es => assignedEntries es
  | .field _ e :: es => e.assigned ++ assignedEntries es

end

theorem Expr.assignedAll_values : ∀ es : List Entry,
    assignedAll (es.filterMap Entry.value?) = assignedEntries es
  | [] => rfl
  | .blank :: es => assignedAll_values es
  | .field _ e :: es => congrArg (e.assigned ++ ·) (assignedAll_values es)

/-! ## Frames -/

/-- The second frame has every binding of the first, and differs from it at most at these names. -/
structure Frame.Kept (names : List String) (f g : Frame) : Prop where
  bubbles : g.bubbles = f.bubbles
  bound : ∀ x, (f.get? x).isSome → (g.get? x).isSome
  other : ∀ x, x ∉ names → g.get? x = f.get? x

theorem Frame.Kept.refl (names : List String) (f : Frame) : f.Kept names f :=
  ⟨rfl, fun _ h => h, fun _ _ => rfl⟩

theorem Frame.Kept.trans {names : List String} {f g h : Frame} (h₁ : f.Kept names g)
    (h₂ : g.Kept names h) : f.Kept names h where
  bubbles := h₂.bubbles.trans h₁.bubbles
  bound x hx := h₂.bound x (h₁.bound x hx)
  other x hx := (h₂.other x hx).trans (h₁.other x hx)

theorem Frame.Kept.mono {names more : List String} {f g : Frame} (h : f.Kept names g)
    (hsub : names ⊆ more) : f.Kept more g :=
  ⟨h.bubbles, h.bound, fun x hx => h.other x fun hn => hx (hsub hn)⟩

theorem Frame.get?_insert (f : Frame) (name x : String) (v : Value) :
    (f.insert name v).get? x = if name = x then some v else f.get? x :=
  Table.find?_insert f.bindings name x v

theorem Frame.kept_insert (f : Frame) (name : String) (v : Value) :
    f.Kept [name] (f.insert name v) := by
  refine ⟨rfl, fun x hx => ?_, fun x hx => ?_⟩
  · rw [Frame.get?_insert]
    split
    · rfl
    · exact hx
  · have hne : name ≠ x := fun h => hx (List.mem_singleton.2 h.symm)
    rw [Frame.get?_insert, if_neg hne]

/-- The scopes differ at most in the top frame, and there at most at these names. -/
inductive Scopes.Kept (names : List String) : Scopes → Scopes → Prop where
  | none : Scopes.Kept names ⟨[]⟩ ⟨[]⟩
  | top {f g : Frame} {below : List Frame} : f.Kept names g →
      Scopes.Kept names ⟨f :: below⟩ ⟨g :: below⟩

theorem Scopes.Kept.refl (names : List String) : ∀ s : Scopes, s.Kept names s
  | ⟨[]⟩ => .none
  | ⟨f :: _⟩ => .top (.refl names f)

theorem Scopes.Kept.trans {names : List String} {a b c : Scopes} (h₁ : a.Kept names b)
    (h₂ : b.Kept names c) : a.Kept names c := by
  cases h₁ with
  | none => exact h₂
  | top h₁ =>
    cases h₂ with
    | top h₂ => exact .top (h₁.trans h₂)

theorem Scopes.Kept.mono {names more : List String} {a b : Scopes} (h : a.Kept names b)
    (hsub : names ⊆ more) : a.Kept more b := by
  cases h with
  | none => exact .none
  | top h => exact .top (h.mono hsub)

theorem Scopes.kept_insert {a b : Scopes} {name : String} {v : Value}
    (h : a.insert? name v = some b) : a.Kept [name] b := by
  obtain ⟨frames⟩ := a
  cases frames with
  | nil => cases h
  | cons f below =>
    cases h
    exact .top (f.kept_insert name v)

theorem Scopes.Kept.depth_eq {names : List String} {a b : Scopes} (h : a.Kept names b) :
    b.depth = a.depth := by
  cases h <;> rfl

theorem Scopes.Kept.tail_eq {names : List String} {a b : Scopes} (h : a.Kept names b) :
    b.frames.tail = a.frames.tail := by
  cases h <;> rfl

theorem Scopes.Kept.top_of {names : List String} {a b : Scopes} (h : a.Kept names b) {f : Frame}
    (hf : a.top? = some f) : ∃ g, b.top? = some g ∧ f.Kept names g := by
  cases h with
  | none => cases hf
  | top h =>
    cases hf
    exact ⟨_, rfl, h⟩

/-- Pushing a frame, changing the top one and popping it leaves nothing changed. -/
theorem Scopes.Kept.pop_eq {names : List String} {a b : Scopes} {f : Frame}
    (h : (a.push f).Kept names b) : b.pop = a :=
  congrArg Scopes.mk h.tail_eq

namespace Machine

variable {m : Machine σ}

/-! ## Runs -/

/-- What an evaluation that assigns to these names leaves as it was. -/
structure Kept (names : List String) (s t : State σ) : Prop where
  scopes : s.scopes.Kept names t.scopes
  calls : t.calls = s.calls
  held : t.world.held = s.world.held

theorem Kept.refl (names : List String) (s : State σ) : Kept names s s := ⟨.refl .., rfl, rfl⟩

theorem Kept.trans {names : List String} {s t u : State σ} (h₁ : Kept names s t)
    (h₂ : Kept names t u) : Kept names s u :=
  ⟨h₁.scopes.trans h₂.scopes, h₂.calls.trans h₁.calls, h₂.held.trans h₁.held⟩

theorem Kept.mono {names more : List String} {s t : State σ} (h : Kept names s t)
    (hsub : names ⊆ more) : Kept more s t :=
  ⟨h.scopes.mono hsub, h.calls, h.held⟩

theorem Kept.append {names more : List String} {s t u : State σ} (h₁ : Kept names s t)
    (h₂ : Kept more t u) : Kept (names ++ more) s u :=
  (h₁.mono (List.subset_append_left ..)).trans (h₂.mono (List.subset_append_right ..))

theorem Kept.assign {names : List String} {name : String} {v : Value} {scopes : Scopes}
    {s t : State σ} (h : Kept names s t) (hi : t.scopes.insert? name v = some scopes) :
    Kept (name :: names) s { t with scopes := scopes } where
  scopes := (h.scopes.mono (List.subset_cons_self ..)).trans
    ((Scopes.kept_insert hi).mono (List.cons_subset_cons name (List.nil_subset names)))
  calls := h.calls
  held := h.held

theorem Kept.skipHandle {names : List String} {s t : State σ} (h : Kept names s t) :
    Kept names s t.skipHandle := ⟨h.scopes, h.calls, h.held⟩

/-- What a call leaves as it was. -/
structure Restored (s t : State σ) : Prop where
  scopes : t.scopes = s.scopes
  calls : t.calls = s.calls
  held : t.world.held = s.world.held

theorem Restored.kept {s t : State σ} (h : Restored s t) (names : List String) : Kept names s t :=
  ⟨h.scopes ▸ .refl .., h.calls, h.held⟩

/-- A call is left as it was entered if the function that ran restored its state. -/
theorem Restored.of_run {path : Path} {f : Function} {k : Nat} {held : Held} {s t : State σ}
    (hf : m.registry.acquire path s.world.held = .ok (f, held))
    (h : Restored (m.enter path f k held s) t) (e : Unit → Event) :
    Restored s (m.leave f e t) where
  scopes := h.scopes
  calls := by rw [leave_calls, h.calls, enter_calls, List.tail_cons]
  held := by
    rw [leave_held, h.held, enter_held, Registry.acquire_eq hf]
    exact f.release_locks s.world.held

/-- A function body that kept the frame it got leaves its caller's scopes alone. -/
theorem Restored.of_body {names : List String} {f : Frame} {s t : State σ}
    (h : Kept names (s.push f) t) : Restored s t.pop :=
  ⟨h.scopes.pop_eq, h.calls, h.held⟩

/-- All handlers give free what they take into use. -/
def Tidy (m : Machine σ) : Prop := ∀ id vs, (m.handlers id vs).Frees []

mutual

theorem Evals.kept (hm : m.Tidy) {e : Expr} {s t : State σ} {r : Outcome} :
    Evals m e s r t → Kept e.assigned s t
  | .absent | .emptyBlock | .empty _ | .string | .integer | .float | .bool | .var _ | .unbound _ =>
    .refl ..
  | .assign he hi => (he.kept hm).assign hi
  | .assignNowhere he _ => (he.kept hm).mono (List.subset_cons_self ..)
  | .assignStop he => (he.kept hm).mono (List.subset_cons_self ..)
  | .block hes => hes.kept hm
  | .blockStop hes => hes.kept hm
  | .list hes => (hes.kept hm).skipHandle
  | .listStop hes => hes.kept hm
  | .map hes => by
    have h := hes.kept hm
    rw [Expr.assignedAll_values] at h
    exact h.skipHandle
  | .mapStop hes => by
    have h := hes.kept hm
    rw [Expr.assignedAll_values] at h
    exact h
  | .call hes hc => (hes.kept hm).trans ((hc.restored hm).kept _)
  | .callStop hes => hes.kept hm
  | .condTrue ht ha =>
    (ht.kept hm).append ((ha.kept hm).mono (List.subset_append_left ..))
  | .condFalse ht hb =>
    (ht.kept hm).append ((hb.kept hm).mono (List.subset_append_right ..))
  | .condOther ht _ => (ht.kept hm).mono (List.subset_append_left ..)
  | .condStop ht => (ht.kept hm).mono (List.subset_append_left ..)
  | .loopAgain hb hl => (hb.kept hm).trans (hl.kept hm)
  | .loopBreak hb => hb.kept hm
  | .loopReturn hb => hb.kept hm
  | .loopFail hb => hb.kept hm
  | .ret he => he.kept hm
  | .retStop he => he.kept hm
  | .brk he => he.kept hm
  | .brkStop he => he.kept hm

theorem InOrder.kept (hm : m.Tidy) {es : List Expr} {s t : State σ} {r : Except Stop (List Value)} :
    InOrder m es s r t → Kept (Expr.assignedAll es) s t
  | .nil => .refl ..
  | .cons he hes => (he.kept hm).append (hes.kept hm)
  | .later he hes => (he.kept hm).append (hes.kept hm)
  | .stop he => (he.kept hm).mono (List.subset_append_left ..)

theorem Calls.restored (hm : m.Tidy) {path : Path} {vs : List Value} {s t : State σ} {r : Outcome} :
    Calls m path vs s r t → Restored s t
  | .unavailable _ => ⟨rfl, rfl, rfl⟩
  | .returns hf ha => .of_run hf (ha.restored hm) _
  | .fails hf ha => .of_run hf (ha.restored hm) _

theorem Applies.restored (hm : m.Tidy) {name : String} {f : Function} {vs : List Value} {s t : State σ}
    {r : Outcome} : Applies m name f vs s r t → Restored s t
  | .definedArity _ | .bodyless _ | .nativeArity _ | .unhandled _ | .imported => ⟨rfl, rfl, rfl⟩
  | .plain _ hes => .of_body (hes.kept hm)
  | .returned _ hes => .of_body (hes.kept hm)
  | .broke _ hes => .of_body (hes.kept hm)
  | .failed _ hes => .of_body (hes.kept hm)
  | .replied _ hp => ⟨rfl, rfl, hp.frees hm [] _ (hm ..) rfl⟩
  | .refused _ hp => ⟨rfl, rfl, hp.frees hm [] _ (hm ..) rfl⟩

/-- While a handler runs, what it has taken into use stands before what was in use before it. -/
theorem Performs.frees (hm : m.Tidy) {a : Action σ} {w w' : World σ} {r : Except Failure Value} :
    Performs m a w r w' → ∀ (taken base : Held), a.Frees taken → w.held = taken ++ base →
      w'.held = base
  | .reply, taken, base, ha, hw => by
    rw [hw, show taken = [] from ha, List.nil_append]
  | .refuse, taken, base, ha, hw => by
    rw [hw, show taken = [] from ha, List.nil_append]
  | .get h, taken, base, ha, hw => h.frees hm taken base (ha _) hw
  | .put h, taken, base, ha, hw => h.frees hm taken base ha hw
  | .list h, taken, base, ha, hw => h.frees hm taken base (ha _) hw
  | .object h, taken, base, ha, hw => h.frees hm taken base (ha _) hw
  | .call hc h, taken, base, ha, hw =>
    h.frees hm taken base (ha _) ((hc.restored hm).held.trans hw)
  | .evaluate he h, taken, base, ha, hw =>
    h.frees hm taken base (ha _) ((he.kept hm).held.trans hw)
  | .acquire hf h, taken, base, ha, hw => by
    refine h.frees hm _ base (ha.2 _) ?_
    rw [Registry.acquire_eq hf, hw, List.append_assoc]
  | .acquireRefused _ h, taken, base, ha, hw => h.frees hm taken base (ha.1 _) hw
  | .release h, taken, base, ha, hw => by
    refine h.frees hm _ base ha.2 ?_
    rw [hw]
    exact Function.release_append ha.1 base

end

/-- However an evaluation ends, it leaves the depth of the scopes, the frames below the top one, the
active calls and the functions in use as they were; the top frame loses no binding and changes only
at names that the expression itself assigns to. -/
theorem evaluation_restores (m : Machine σ) (hm : m.Tidy)
    (n : Nat) (e : Expr) (s t : State σ) (r : Outcome) (h : m.eval n e s = some (r, t)) :
    t.scopes.depth = s.scopes.depth ∧
    t.scopes.frames.tail = s.scopes.frames.tail ∧
    (∀ f, s.scopes.top? = some f → ∃ g, t.scopes.top? = some g ∧ g.bubbles = f.bubbles ∧
      (∀ x, (f.get? x).isSome → (g.get? x).isSome) ∧
      ∀ x, x ∉ e.assigned → g.get? x = f.get? x) ∧
    t.calls = s.calls ∧
    t.world.held = s.world.held := by
  have hk : Kept e.assigned s t := ((sound m n).eval h).kept hm
  refine ⟨hk.scopes.depth_eq, hk.scopes.tail_eq, fun f hf => ?_, hk.calls, hk.held⟩
  obtain ⟨g, hg, hfg⟩ := hk.scopes.top_of hf
  exact ⟨g, hg, hfg.bubbles, hfg.bound, hfg.other⟩

/-! A machine for an instance: `f` assigns and calls the native `g`, which takes `h` into use for a
while. -/

def sample : Machine Nat where
  registry := ⟨[("m", ⟨"m", [
    ("f", .defined ["x"] (some [.assign "y" (.var "x"), .ret (.call ⟨"m", "g"⟩ [])])),
    ("g", .native 0 0 true), ("h", .native 1 0 true)], []⟩)]⟩
  handlers := fun _ _ => .acquire ⟨"m", "h"⟩ fun
    | .ok f => .put 1 (.release f (.reply (.bool true)))
    | .error c => .refuse (.ofCause c)
  traced := false

theorem sample_tidy : sample.Tidy := by
  intro id vs
  refine ⟨fun c => rfl, fun f => ⟨List.subset_append_left .., ?_⟩⟩
  exact f.release_locks []

theorem evaluation_restores_sample :
    let e : Expr :=
      .block [.assign "a" (.call ⟨"m", "f"⟩ [.integer 3]), .brk (.list [.var "a"])]
    let s : State Nat :=
      ⟨⟨[⟨[("a", .none), ("b", .bool true)], false⟩, ⟨[("c", .none)], true⟩]⟩, [⟨"m", "main"⟩],
        ⟨0, [5], 7, []⟩⟩
    ∃ r t, sample.Tidy ∧ sample.eval 20 e s = some (r, t) ∧ t.scopes.depth = 2 ∧
      t.scopes.frames.tail = s.scopes.frames.tail ∧ t.calls = [⟨"m", "main"⟩] ∧
      t.world.held = [5] := by
  intro e s
  have h : sample.eval 20 e s = some (.error (.brk (.list 7 [.bool true])),
      ⟨⟨[⟨[("a", .bool true), ("b", .bool true)], false⟩, ⟨[("c", .none)], true⟩]⟩,
        [⟨"m", "main"⟩], ⟨1, [5], 8, []⟩⟩) := rfl
  obtain ⟨hd, hb, -, hc, hh⟩ := evaluation_restores sample sample_tidy 20 e s _ _ h
  exact ⟨_, _, sample_tidy, h, hd, hb, hc, hh⟩

end Machine

end Arbor
