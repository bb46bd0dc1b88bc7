import Arbor.Package.Program
import Mathlib.Data.List.Forall2

/-!
Going through packages in two ways at once.

* A `Link` relates steps of two kinds, with what they give, and keeps to `pure` and `bind`.
* Walks that are `Walk.Linked`, one thing that is done after the other, are linked as a whole
  (`Walk.Linked.go`).
* `Walk.watched` goes the same way as a walk and takes down the dependencies it has gone through.
-/

set_option autoImplicit false

namespace Arbor.Package

/-- How steps of two kinds hang together, where what they give is as told. -/
structure Link (μ ν : Type → Type) [Monad μ] [Monad ν] where
  rel : {α β : Type} → (α → β → Prop) → μ α → ν β → Prop
  pure : ∀ {α β : Type} {post : α → β → Prop} {a : α} {b : β}, post a b →
    rel post (pure a) (pure b)
  bind : ∀ {α β γ δ : Type} {mid : α → β → Prop} {post : γ → δ → Prop} {x : μ α} {y : ν β}
    {f : α → μ γ} {g : β → ν δ}, rel mid x y → (∀ a b, mid a b → rel post (f a) (g b)) →
    rel post (x >>= f) (y >>= g)

section

variable {μ ν : Type → Type} [Monad μ] [Monad ν]

/-- Steps that give nothing hang together. -/
abbrev Link.Both (L : Link μ ν) (x : μ Unit) (y : ν Unit) : Prop := L.rel (fun _ _ => True) x y

theorem Link.forM (L : Link μ ν) {α β : Type} {l : List α} {l' : List β} {f : α → μ Unit}
    {g : β → ν Unit} (h : List.Forall₂ (fun a b => L.Both (f a) (g b)) l l') :
    L.Both (l.forM f) (l'.forM g) := by
  induction h with
  | nil => exact L.pure trivial
  | cons hab _ ih => exact L.bind hab fun _ _ _ => ih

variable {π π' δ δ' ρ ρ' : Type}

namespace Walk

/-- Two walks do the same sort of thing at packages that go along with each other. -/
structure Linked (L : Link μ ν) (w : Walk μ π δ ρ) (v : Walk ν π' δ' ρ') (along : π → π' → Prop) :
    Prop where
  manifest : ∀ {p q}, along p q → w.manifest p = v.manifest q
  fail : ∀ e, L.Both (w.fail e) (v.fail e)
  isDone : ∀ path, L.rel Eq (w.isDone path) (v.isDone path)
  through : ∀ {p q}, along p q → List.Forall₂
    (fun d d' => ∀ go go', (∀ p q, along p q → L.Both (go p) (go' q)) →
      L.Both (w.through go (w.manifest p) d) (v.through go' (w.manifest p) d'))
    (w.dependencies p) (v.dependencies q)
  take : ∀ m q, L.Both (w.take m q) (v.take m q)
  finish : ∀ path, L.Both (w.finish path) (v.finish path)

variable {w : Walk μ π δ ρ} {v : Walk ν π' δ' ρ'} {L : Link μ ν} {along : π → π' → Prop}

/-- Dependencies that are followed and recorded alike are gone through alike. -/
theorem through_linked (found : ρ → ρ' → Prop) {go : π → μ Unit} {go' : π' → ν Unit} {m : Manifest}
    {d : δ} {d' : δ'} (hfollow : L.rel found (w.follow m d) (v.follow m d'))
    (hgo : ∀ x y, found x y → L.Both (go (w.target x)) (go' (v.target y)))
    (hrecord : ∀ x y, found x y → L.Both (w.record x) (v.record y)) :
    L.Both (w.through go m d) (v.through go' m d') :=
  L.bind hfollow fun x y hxy => L.bind (hgo x y hxy) fun _ _ _ => hrecord x y hxy

/-- Walks that are linked go the same way. The second one may go further, if it does not matter what
it does where the first one is too deep. -/
theorem Linked.go (h : w.Linked L v along) {more : Nat}
    (hdeep : more = 0 ∨ ∀ y, L.Both (w.fail .tooDeep) y) (fuel : Nat)
    (chain : List (String × String)) {p : π} {q : π'} (hpq : along p q) :
    L.Both (w.go fuel chain p) (v.go (fuel + more) chain q) := by
  induction fuel generalizing chain p q with
  | zero =>
    obtain rfl | hdeep := hdeep
    · exact h.fail _
    · exact hdeep _
  | succ fuel ih =>
    rw [Nat.add_right_comm]
    unfold Walk.go
    simp only [← h.manifest hpq]
    split
    next => exact h.fail _
    next =>
      refine L.bind (h.isDone _) ?_
      rintro isDone _ rfl
      split
      next => exact L.pure trivial
      next =>
        have hgo := @ih (((w.manifest p).path, (w.manifest p).name) :: chain)
        have hthrough := (h.through hpq).imp fun _ _ hd => hd _ _ fun _ _ => hgo
        refine L.bind (L.forM hthrough) fun _ _ _ => ?_
        refine L.bind (L.forM (List.forall₂_same.2 fun x _ => ?_)) fun _ _ _ => h.finish _
        exact h.take _ x

end Walk

end

/-! ## Watching a walk -/

/-- A dependency of a package that was gone through, with where it led. -/
structure Step (δ ρ : Type) where
  package : Manifest
  dependency : δ
  found : ρ

variable {μ : Type → Type} [Monad μ] {π δ ρ : Type}

/-- The walk, with the dependencies that were gone through taken down, the latest first. -/
def Walk.watched (w : Walk μ π δ ρ) :
    Walk (StateT (List (Step δ ρ)) μ) π δ (Step δ ρ) where
  manifest := w.manifest
  dependencies := w.dependencies
  fail e := liftM (w.fail e)
  isDone path := liftM (w.isDone path)
  follow m d := do
    let x ← w.follow m d
    return ⟨m, d, x⟩
  target x := w.target x.found
  record x := do
    w.record x.found
    modify (x :: ·)
  take m q := liftM (w.take m q)
  finish path := liftM (w.finish path)

end Arbor.Package
