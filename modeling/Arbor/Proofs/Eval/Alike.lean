import Arbor.Proofs.Eval.BreakClosed
import Arbor.Proofs.Eval.HostLog
import Mathlib.Data.List.Forall2

/-!
Trees that differ by blocks inside blocks.

A block has no scope of its own, so the expressions of a block inside another may as well stand in
the outer one (`Unnests`). `Expr.Flattens` does this at one place of a tree. What is carried through
a run is `Expr.Alike`, which goes in both directions and allows for several such places, and from it
the same for functions and registries. A handler sees the bodies of the functions that it takes into
use; `Action.Alike` are two handlers that go on in the same way with either of two such bodies.
-/

set_option autoImplicit false

namespace Arbor

variable {σ : Type}

/-! ## Flattening -/

/-- A block among expressions is replaced by what is in it. If it comes last, it has a value even
without anything in it, and has to stay then, unless it was all there is. -/
inductive Unnests : List Expr → List Expr → Prop where
  | intro (xs ys zs : List Expr) : ys ≠ [] ∨ zs ≠ [] ∨ xs = [] →
      Unnests (xs ++ .block ys :: zs) (xs ++ ys ++ zs)

/-- Somewhere in the tree a block inside a block is replaced by what is in it. -/
inductive Expr.Flattens : Expr → Expr → Prop where
  | here {es es' : List Expr} : Unnests es es' → Flattens (.block es) (.block es')
  | assign {name : String} {e e' : Expr} : Flattens e e' →
      Flattens (.assign name e) (.assign name e')
  | block {before after : List Expr} {e e' : Expr} : Flattens e e' →
      Flattens (.block (before ++ e :: after)) (.block (before ++ e' :: after))
  | list {before after : List Expr} {e e' : Expr} : Flattens e e' →
      Flattens (.list (before ++ e :: after)) (.list (before ++ e' :: after))
  | map {before after : List Entry} {key : String} {e e' : Expr} : Flattens e e' →
      Flattens (.map (before ++ .field key e :: after)) (.map (before ++ .field key e' :: after))
  | call {path : Path} {before after : List Expr} {e e' : Expr} : Flattens e e' →
      Flattens (.call path (before ++ e :: after)) (.call path (before ++ e' :: after))
  | test {e e' a b : Expr} : Flattens e e' → Flattens (.cond e a b) (.cond e' a b)
  | whenTrue {test e e' b : Expr} : Flattens e e' → Flattens (.cond test e b) (.cond test e' b)
  | whenFalse {test a e e' : Expr} : Flattens e e' → Flattens (.cond test a e) (.cond test a e')
  | loop {e e' : Expr} : Flattens e e' → Flattens (.loop e) (.loop e')
  | ret {e e' : Expr} : Flattens e e' → Flattens (.ret e) (.ret e')
  | brk {e e' : Expr} : Flattens e e' → Flattens (.brk e) (.brk e')

/-- The function is the same, or its body is flattened at one place. -/
inductive Function.Flattens : Function → Function → Prop where
  | same (f : Function) : Flattens f f
  | body {parameters : List String} {es es' : List Expr} :
      (Expr.block es).Flattens (.block es') →
      Flattens (.defined parameters (some es)) (.defined parameters (some es'))

/-- What the same path leads to in two registries: nothing, for the same cause, or functions that
stand in a relation. -/
inductive Registry.Found (R : Function → Function → Prop) :
    Except Cause Function → Except Cause Function → Prop where
  | refused (c : Cause) : Found R (.error c) (.error c)
  | ok {f f' : Function} : R f f' → Found R (.ok f) (.ok f')

/-- Every path leads to related functions. -/
def Registry.Matches (R : Function → Function → Prop) (r r' : Registry) : Prop :=
  ∀ path, Registry.Found R (r.resolve path) (r'.resolve path)

/-! ## Trees that differ by blocks inside blocks -/

/-- Trees that are the same but for blocks inside blocks, at places of which none is in another. -/
inductive Expr.Alike : Expr → Expr → Prop where
  | absent : Alike .absent .absent
  | empty {type : NodeType} : Alike (.empty type) (.empty type)
  | var {name : String} : Alike (.var name) (.var name)
  | string {x : String} : Alike (.string x) (.string x)
  | integer {x : Int32} : Alike (.integer x) (.integer x)
  | float {x : Single} : Alike (.float x) (.float x)
  | bool {x : Bool} : Alike (.bool x) (.bool x)
  | unnested {es es' : List Expr} : Unnests es es' → Alike (.block es) (.block es')
  | nested {es es' : List Expr} : Unnests es' es → Alike (.block es) (.block es')
  | block {es es' : List Expr} : List.Forall₂ Alike es es' → Alike (.block es) (.block es')
  | assign {name : String} {e e' : Expr} : Alike e e' → Alike (.assign name e) (.assign name e')
  | list {es es' : List Expr} : List.Forall₂ Alike es es' → Alike (.list es) (.list es')
  | map {es es' : List Entry} : es.filterMap Entry.key? = es'.filterMap Entry.key? →
      List.Forall₂ Alike (es.filterMap Entry.value?) (es'.filterMap Entry.value?) →
      Alike (.map es) (.map es')
  | call {path : Path} {es es' : List Expr} : List.Forall₂ Alike es es' →
      Alike (.call path es) (.call path es')
  | cond {test test' a a' b b' : Expr} : Alike test test' → Alike a a' → Alike b b' →
      Alike (.cond test a b) (.cond test' a' b')
  | loop {e e' : Expr} : Alike e e' → Alike (.loop e) (.loop e')
  | ret {e e' : Expr} : Alike e e' → Alike (.ret e) (.ret e')
  | brk {e e' : Expr} : Alike e e' → Alike (.brk e) (.brk e')

namespace Expr.Alike

theorem refl (e : Expr) : e.Alike e := by
  induction e using Expr.induction_parts with
  | h e ih =>
    have hparts : List.Forall₂ Expr.Alike e.parts e.parts := List.forall₂_same.2 ih
    cases e with
    | absent => exact .absent
    | empty type => exact .empty
    | var name => exact .var
    | string x => exact .string
    | integer x => exact .integer
    | float x => exact .float
    | bool x => exact .bool
    | block es => exact .block hparts
    | list es => exact .list hparts
    | call path es => exact .call hparts
    | map es => exact .map rfl hparts
    | assign name e => exact .assign (ih e (List.mem_singleton_self _))
    | loop e => exact .loop (ih e (List.mem_singleton_self _))
    | ret e => exact .ret (ih e (List.mem_singleton_self _))
    | brk e => exact .brk (ih e (List.mem_singleton_self _))
    | cond test a b =>
      have h := List.forall₂_cons.1 hparts
      have h' := List.forall₂_cons.1 h.2
      exact .cond h.1 h'.1 (List.forall₂_cons.1 h'.2).1

theorem all_refl (es : List Expr) : List.Forall₂ Expr.Alike es es :=
  List.forall₂_same.2 fun e _ => refl e

theorem symm {e e' : Expr} (h : e.Alike e') : e'.Alike e := by
  induction e using Expr.induction_parts generalizing e' with
  | h e ih =>
    have hparts : ∀ es', List.Forall₂ Expr.Alike e.parts es' →
        List.Forall₂ Expr.Alike es' e.parts := fun es' h =>
      .flip (((List.forall₂_and_left _ _).2 ⟨ih, h⟩).imp fun _ _ h => h.1 h.2)
    cases h with
    | absent => exact .absent
    | empty => exact .empty
    | var => exact .var
    | string => exact .string
    | integer => exact .integer
    | float => exact .float
    | bool => exact .bool
    | unnested h => exact .nested h
    | nested h => exact .unnested h
    | block h => exact .block (hparts _ h)
    | list h => exact .list (hparts _ h)
    | call h => exact .call (hparts _ h)
    | map hkeys h => exact .map hkeys.symm (hparts _ h)
    | assign h => exact .assign (ih _ (List.mem_singleton_self _) h)
    | loop h => exact .loop (ih _ (List.mem_singleton_self _) h)
    | ret h => exact .ret (ih _ (List.mem_singleton_self _) h)
    | brk h => exact .brk (ih _ (List.mem_singleton_self _) h)
    | cond ht ha hb =>
      exact .cond (ih _ (by simp [Expr.parts]) ht) (ih _ (by simp [Expr.parts]) ha)
        (ih _ (by simp [Expr.parts]) hb)

theorem all_of_one {e e' : Expr} (h : e.Alike e') (before after : List Expr) :
    List.Forall₂ Expr.Alike (before ++ e :: after) (before ++ e' :: after) :=
  List.rel_append (all_refl before) (.cons h (all_refl after))

end Expr.Alike

theorem Expr.Flattens.alike {e e' : Expr} (h : e.Flattens e') : e.Alike e' := by
  induction h with
  | here h => exact .unnested h
  | assign _ ih => exact .assign ih
  | block _ ih => exact .block (Expr.Alike.all_of_one ih ..)
  | list _ ih => exact .list (Expr.Alike.all_of_one ih ..)
  | map _ ih =>
    refine .map ?_ ?_
    · simp only [List.filterMap_append, List.filterMap_cons, Entry.key?]
    · simp only [List.filterMap_append, List.filterMap_cons, Entry.value?]
      exact Expr.Alike.all_of_one ih ..
  | call _ ih => exact .call (Expr.Alike.all_of_one ih ..)
  | test _ ih => exact .cond ih (.refl _) (.refl _)
  | whenTrue _ ih => exact .cond (.refl _) ih (.refl _)
  | whenFalse _ ih => exact .cond (.refl _) (.refl _) ih
  | loop _ ih => exact .loop ih
  | ret _ ih => exact .ret ih
  | brk _ ih => exact .brk ih

/-- Functions that differ by blocks inside blocks of their bodies. -/
inductive Function.Alike : Function → Function → Prop where
  | bodyless {parameters : List String} :
      Alike (.defined parameters none) (.defined parameters none)
  | defined {parameters : List String} {es es' : List Expr} : (Expr.block es).Alike (.block es') →
      Alike (.defined parameters (some es)) (.defined parameters (some es'))
  | native {id : NativeId} {arity : Nat} {handled : Bool} :
      Alike (.native id arity handled) (.native id arity handled)
  | imported {target : Path} : Alike (.imported target) (.imported target)

namespace Function

variable {f f' : Function}

theorem Alike.refl : ∀ f : Function, f.Alike f
  | .defined _ none => .bodyless
  | .defined _ (some _) => .defined (.refl _)
  | .native .. => .native
  | .imported _ => .imported

theorem Alike.symm (h : f.Alike f') : f'.Alike f := by
  cases h with
  | bodyless => exact .bodyless
  | defined h => exact .defined h.symm
  | native => exact .native
  | imported => exact .imported

theorem Flattens.alike (h : f.Flattens f') : f.Alike f' := by
  cases h with
  | same => exact .refl f
  | body h => exact .defined h.alike

theorem Alike.kind_eq (h : f.Alike f') : f'.kind = f.kind := by
  cases h <;> rfl

theorem Alike.acquire_eq (h : f.Alike f') (path : Path) (held : Held) :
    f'.acquire path held = f.acquire path held := by
  cases h <;> rfl

theorem Alike.release_eq (h : f.Alike f') (held : Held) : f'.release held = f.release held := by
  cases h <;> rfl

end Function

namespace Registry

variable {r r' : Registry} {path : Path} {held : Held}

theorem found_self : ∀ x : Except Cause Function, Found Function.Flattens x x
  | .error c => .refused c
  | .ok f => .ok (.same f)

section Found

variable {R S : Function → Function → Prop} {x y : Except Cause Function}

theorem Found.of_error {c : Cause} (h : Found R x y) (hx : x = .error c) : y = .error c := by
  cases h with
  | refused => exact hx
  | ok => cases hx

theorem Found.of_ok {f : Function} (h : Found R x y) (hx : x = .ok f) :
    ∃ f', y = .ok f' ∧ R f f' := by
  cases h with
  | refused => cases hx
  | @ok g g' hg =>
    cases hx
    exact ⟨g', rfl, hg⟩

theorem Found.imp (h : Found R x y) (hRS : ∀ f f', R f f' → S f f') : Found S x y := by
  cases h with
  | refused c => exact .refused c
  | ok hf => exact .ok (hRS _ _ hf)

theorem Found.symm (h : Found Function.Alike x y) : Found Function.Alike y x := by
  cases h with
  | refused c => exact .refused c
  | ok hf => exact .ok hf.symm

theorem Matches.imp (h : r.Matches R r') (hRS : ∀ f f', R f f' → S f f') : r.Matches S r' :=
  fun path => (h path).imp hRS

end Found

/-- A function is replaced in the module it belongs to. -/
theorem matches_register (r : Registry) (l : Library) (name : String) {f f' : Function}
    (h : f.Flattens f') :
    (r.register (l.add name f)).Matches Function.Flattens (r.register (l.add name f')) := by
  intro path
  unfold resolve
  rw [module?_register, module?_register]
  by_cases hmodule : l.name = path.module
  · rw [if_pos (show (l.add name f).name = path.module from hmodule),
      if_pos (show (l.add name f').name = path.module from hmodule)]
    dsimp only
    rw [Library.function?_add, Library.function?_add]
    by_cases hitem : name = path.item
    · rw [if_pos hitem, if_pos hitem]
      exact .ok h
    · rw [if_neg hitem, if_neg hitem]
      exact found_self _
  · rw [if_neg (show (l.add name f).name ≠ path.module from hmodule),
      if_neg (show (l.add name f').name ≠ path.module from hmodule)]
    exact found_self _

theorem Matches.acquire_error (h : r.Matches Function.Alike r') {c : Cause}
    (hc : r.acquire path held = .error c) : r'.acquire path held = .error c := by
  refine acquire_eq_error_iff.2 ?_
  obtain hr | ⟨f, hf, ha⟩ := acquire_eq_error_iff.1 hc
  · exact .inl ((h path).of_error hr)
  · obtain ⟨f', hf', hff⟩ := (h path).of_ok hf
    exact .inr ⟨f', hf', (hff.acquire_eq path held).trans ha⟩

theorem Matches.acquire_ok (h : r.Matches Function.Alike r') {f : Function} {held' : Held}
    (hf : r.acquire path held = .ok (f, held')) :
    ∃ f', r'.acquire path held = .ok (f', held') ∧ f.Alike f' := by
  obtain ⟨hresolve, ha⟩ := acquire_eq_ok_iff.1 hf
  obtain ⟨f', hf', hff⟩ := (h path).of_ok hresolve
  exact ⟨f', acquire_eq_ok_iff.2 ⟨hf', (hff.acquire_eq path held).trans ha⟩, hff⟩

theorem Matches.symm (h : r.Matches Function.Alike r') : r'.Matches Function.Alike r :=
  fun path => (h path).symm

end Registry

/-! ## Handlers -/

/-- Two handlers that take the same steps, one with the functions of `r` and the other with those of
`r'`. They may evaluate trees that are alike. -/
inductive Action.Alike (r r' : Registry) : Action σ → Action σ → Prop where
  | reply {v : Value} : Alike r r' (.reply v) (.reply v)
  | refuse {f : Failure} : Alike r r' (.refuse f) (.refuse f)
  | get {next next' : σ → Action σ} : (∀ h, Alike r r' (next h) (next' h)) →
      Alike r r' (.get next) (.get next')
  | put {host : σ} {next next' : Action σ} : Alike r r' next next' →
      Alike r r' (.put host next) (.put host next')
  | list {vs : List Value} {next next' : Value → Action σ} :
      (∀ v, Alike r r' (next v) (next' v)) → Alike r r' (.list vs next) (.list vs next')
  | object {fs : List (String × Value)} {next next' : Value → Action σ} :
      (∀ v, Alike r r' (next v) (next' v)) → Alike r r' (.object fs next) (.object fs next')
  | call {path : Path} {vs : List Value} {next next' : Except Failure Value → Action σ} :
      (∀ x, Alike r r' (next x) (next' x)) → Alike r r' (.call path vs next) (.call path vs next')
  | evaluate {e e' : Expr} {next next' : Except Failure Value → Action σ} : e.Alike e' →
      (∀ x, Alike r r' (next x) (next' x)) → Alike r r' (.evaluate e next) (.evaluate e' next')
  | acquire {path : Path} {next next' : Except Cause Function → Action σ} :
      (∀ c, Alike r r' (next (.error c)) (next' (.error c))) →
      (∀ f f', r.resolve path = .ok f → r'.resolve path = .ok f' →
        Alike r r' (next (.ok f)) (next' (.ok f'))) →
      Alike r r' (.acquire path next) (.acquire path next')
  | release {f f' : Function} {next next' : Action σ} :
      (∀ held, f'.release held = f.release held) → Alike r r' next next' →
      Alike r r' (.release f next) (.release f' next')

namespace Action.Alike

variable {r r' : Registry}

theorem refl (a : Action σ) : Alike r r a a := by
  induction a with
  | reply => exact .reply
  | refuse => exact .refuse
  | get _ ih => exact .get ih
  | put _ _ ih => exact .put ih
  | list _ _ ih => exact .list ih
  | object _ _ ih => exact .object ih
  | call _ _ _ ih => exact .call ih
  | evaluate e _ ih => exact .evaluate (.refl e) ih
  | acquire path _ ih =>
    refine .acquire (fun c => ih _) fun f f' hf hf' => ?_
    cases hf.symm.trans hf'
    exact ih _
  | release _ _ ih => exact .release (fun _ => rfl) ih

theorem symm {a a' : Action σ} (h : Alike r r' a a') : Alike r' r a' a := by
  induction h with
  | reply => exact .reply
  | refuse => exact .refuse
  | get _ ih => exact .get ih
  | put _ ih => exact .put ih
  | list _ ih => exact .list ih
  | object _ ih => exact .object ih
  | call _ ih => exact .call ih
  | evaluate he _ ih => exact .evaluate he.symm ih
  | acquire _ _ ihc ihf => exact .acquire ihc fun f f' hf hf' => ihf f' f hf' hf
  | release hf _ ih => exact .release (fun held => (hf held).symm) ih

theorem logged {a a' : Action σ} (h : Alike r r' a a') : Alike r r' a.logged a'.logged := by
  induction h with
  | reply => exact .reply
  | refuse => exact .refuse
  | get _ ih => exact .get fun p => ih p.1
  | put _ ih => exact .get fun p => .put ih
  | list _ ih => exact .list ih
  | object _ ih => exact .object ih
  | call _ ih => exact .call ih
  | evaluate he _ ih => exact .evaluate he ih
  | acquire _ _ ihc ihf => exact .acquire ihc ihf
  | release hf _ ih => exact .release hf ih

end Action.Alike

end Arbor
