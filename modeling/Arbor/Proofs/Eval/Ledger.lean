import Arbor.Proofs.Eval.Agreement
import Arbor.Proofs.Eval.Bindings
import Arbor.Proofs.Eval.Moments

/-!
The containers of a run, written down in the order in which they are made.

A ledger has the container with handle `h` at position `h`. A value fits a ledger if every container
in it, at any depth, is the one that the ledger has under its handle. Ledgers only grow, and what fits
a ledger fits all that it grows into. A `Snapshot` is what can be seen of a run at one moment or at
the end of one of its parts: some values and the frames.

Handlers may pass on the values they got and those they made, and may leave values with the host.
`Action.Honest` says that they come to containers in no other way; `Custody` is what is known of the
containers that the host keeps.
-/

set_option autoImplicit false

namespace Arbor

variable {σ α : Type}

/-! ## Containers in values -/

/-- The handle of a list or an object. -/
def Value.handle? : Value → Option Handle
  | .list h _ => some h
  | .object h _ => some h
  | _ => Option.none

/-- The first value is the second one or stands in it, at any depth. -/
inductive Value.Within (c : Value) : Value → Prop where
  | here : Within c c
  | element {h : Handle} {es : List Value} {v : Value} : v ∈ es → Within c v → Within c (.list h es)
  | field {h : Handle} {fs : List (String × Value)} {p : String × Value} :
      p ∈ fs → Within c p.2 → Within c (.object h fs)

/-- The containers that were made, the one with handle `h` at position `h`. -/
abbrev Ledger := List Value

/-- Every container in the value is the one that was made with its handle. -/
def Value.Fits (l : Ledger) (v : Value) : Prop :=
  ∀ (c : Value) (h : Handle), c.Within v → c.handle? = some h → l[h]? = some c

section Fits
variable {l l' : Ledger} {v c : Value}

theorem Value.Fits.mono (hv : v.Fits l) (hl : l <+: l') : v.Fits l' := by
  intro c h hc hh
  have hlt := hv c h hc hh
  obtain ⟨rest, rfl⟩ := hl
  rw [List.getElem?_append_left (List.getElem?_eq_some_iff.1 hlt).1]
  exact hlt

theorem Value.Fits.lt (hv : v.Fits l) {h : Handle} (hc : c.Within v) (hh : c.handle? = some h) :
    h < l.length :=
  (List.getElem?_eq_some_iff.1 (hv c h hc hh)).1

theorem Value.fits_scalar (h : v.handle? = Option.none) : v.Fits l := by
  intro c k hc hk
  cases hc with
  | here => cases h.symm.trans hk
  | element => cases h
  | field => cases h

theorem Value.Fits.orNone (hv : v.Fits l) : v.orNone.Fits l := by
  cases v with
  | missing => exact fits_scalar rfl
  | _ => exact hv

theorem Value.fits_getLastD {vs : List Value} (h : ∀ v ∈ vs, v.Fits l) :
    (vs.getLastD .none).Fits l :=
  all_getLastD (fits_scalar rfl) h

theorem Ledger.getElem?_concat (l : Ledger) (v : Value) : (l ++ [v])[l.length]? = some v := by simp

theorem Value.fits_list {vs : List Value} (h : ∀ v ∈ vs, v.Fits l) :
    (Value.list l.length vs).Fits (l ++ [.list l.length vs]) := by
  intro c k hc hk
  cases hc with
  | here =>
    cases hk
    exact l.getElem?_concat _
  | element hv hc => exact (h _ hv).mono (List.prefix_append ..) c k hc hk

theorem Value.fits_object {fs : Table Value} (h : Table.All (Value.Fits l) fs) :
    (Value.object l.length fs).Fits (l ++ [.object l.length fs]) := by
  intro c k hc hk
  cases hc with
  | here =>
    cases hk
    exact l.getElem?_concat _
  | field hp hc => exact (h _ hp).mono (List.prefix_append ..) c k hc hk

end Fits

/-! ## Snapshots -/

/-- What can be seen of a run at one time: values that are passed on, and the frames. -/
structure Snapshot (σ : Type) where
  values : List Value
  scopes : Scopes
  world : World σ

/-- The container is found there, in a value that is passed on or bound, at any depth. -/
def Snapshot.Has (p : Snapshot σ) (c : Value) : Prop :=
  (∃ v ∈ p.values, c.Within v) ∨ ∃ f ∈ p.scopes.frames, ∃ q ∈ f.bindings, c.Within q.2

/-- The state with the values that are passed on there. -/
def State.shows (s : State σ) (values : List Value) : Snapshot σ := ⟨values, s.scopes, s.world⟩

def World.shows (w : World σ) (values : List Value) : Snapshot σ := ⟨values, Scopes.empty, w⟩

/-- What holds of a ledger and the containers that the host keeps, and outlives new entries. -/
structure Custody (σ : Type) where
  keeps : Ledger → σ → Prop
  mono : ∀ {l l' : Ledger} {host : σ}, l <+: l' → keeps l host → keeps l' host

/-- All that is found in the snapshot is in the ledger. -/
structure Snapshot.Lies (l : Ledger) (p : Snapshot σ) : Prop where
  values : ∀ v ∈ p.values, v.Fits l
  scopes : p.scopes.All (Value.Fits l)

/-- Besides, the ledger is that of this time, and the host keeps to it. -/
structure Snapshot.Fits (I : Custody σ) (l : Ledger) (p : Snapshot σ) : Prop extends p.Lies l where
  size : l.length = p.world.fresh
  host : I.keeps l p.world.host

namespace Snapshot

variable {I : Custody σ} {l l' : Ledger} {p : Snapshot σ}

theorem Lies.mono (h : p.Lies l) (hl : l <+: l') : p.Lies l' :=
  ⟨fun v hv => (h.values v hv).mono hl, h.scopes.imp fun _ hv => hv.mono hl⟩

theorem Lies.getElem? (h : p.Lies l) {c : Value} {k : Handle} (hc : p.Has c)
    (hk : c.handle? = some k) : l[k]? = some c := by
  obtain ⟨v, hv, hcv⟩ | ⟨f, hf, q, hq, hcq⟩ := hc
  · exact h.values v hv c k hcv hk
  · exact h.scopes f hf q hq c k hcq hk

theorem Fits.lt (h : p.Fits I l) {c : Value} {k : Handle} (hc : p.Has c)
    (hk : c.handle? = some k) : k < p.world.fresh := by
  rw [← h.size]
  exact (List.getElem?_eq_some_iff.1 (h.getElem? hc hk)).1

theorem Fits.of_values (h : p.Fits I l) {vs : List Value} (hvs : ∀ v ∈ vs, v.Fits l) :
    Snapshot.Fits I l ⟨vs, p.scopes, p.world⟩ :=
  ⟨⟨hvs, h.scopes⟩, h.size, h.host⟩

theorem Fits.of_value (h : p.Fits I l) {v : Value} (hv : v.Fits l) :
    Snapshot.Fits I l ⟨[v], p.scopes, p.world⟩ :=
  h.of_values (List.forall_mem_singleton.2 hv)

theorem Fits.of_scopes (h : p.Fits I l) {scopes : Scopes} (hs : scopes.All (Value.Fits l)) :
    Snapshot.Fits I l ⟨p.values, scopes, p.world⟩ :=
  ⟨⟨h.values, hs⟩, h.size, h.host⟩

theorem Fits.of_world (h : p.Fits I l) {w : World σ} (hfresh : w.fresh = p.world.fresh)
    (hhost : w.host = p.world.host) : Snapshot.Fits I l ⟨p.values, p.scopes, w⟩ :=
  ⟨⟨h.values, h.scopes⟩, h.size.trans hfresh.symm, hhost ▸ h.host⟩

/-- A new container is entered under the next free handle. -/
theorem Fits.made (h : p.Fits I l) {v : Value} (hv : v.Fits (l ++ [v])) :
    Snapshot.Fits I (l ++ [v]) ⟨[v], p.scopes, p.world.skipHandle⟩ where
  values := List.forall_mem_singleton.2 hv
  scopes := h.scopes.imp fun _ hx => hx.mono (List.prefix_append ..)
  size := by
    rw [List.length_append, h.size]
    rfl
  host := I.mono (List.prefix_append ..) h.host

end Snapshot

/-! ## Handlers -/

/-- With the ledger as it is, the handler replies and calls with values that fit it only, as long as
this holds of the values it is given; new containers are those that it has had made. -/
def Action.Honest (I : Custody σ) : Action σ → Ledger → Prop
  | .reply v, l => v.Fits l
  | .refuse _, _ => True
  | .get next, l => ∀ host, I.keeps l host → (next host).Honest I l
  | .put host next, l => I.keeps l host ∧ next.Honest I l
  | .list vs next, l => (∀ v ∈ vs, v.Fits l) ∧
    (next (.list l.length vs)).Honest I (l ++ [.list l.length vs])
  | .object fs next, l => Table.All (Value.Fits l) fs ∧
    (next (.object l.length fs)).Honest I (l ++ [.object l.length fs])
  | .call _ vs next, l => (∀ v ∈ vs, v.Fits l) ∧
    ∀ l' r, l <+: l' → (∀ v, r = .ok v → v.Fits l') → (next r).Honest I l'
  | .evaluate _ next, l =>
    ∀ l' r, l <+: l' → (∀ v, r = .ok v → v.Fits l') → (next r).Honest I l'
  | .acquire _ next, l => ∀ r, (next r).Honest I l
  | .release _ next, l => next.Honest I l

/-- The handlers of the machine are honest, whatever fitting arguments they get. -/
def Machine.Honest (m : Machine σ) (I : Custody σ) : Prop :=
  ∀ id vs l, (∀ v ∈ vs, v.Fits l) → (m.handlers id vs).Honest I l

/-! ## Moments and ends -/

def Moment.snapshot : Moment σ → Snapshot σ
  | .expr _ s => s.shows []
  | .order _ s => s.shows []
  | .call _ vs s => s.shows vs
  | .run _ _ vs s => s.shows vs
  | .handler _ vs w => w.shows vs
  | .act _ w => w.shows []

/-- The moment fits the ledger, and a handler that goes on there is honest. -/
structure Moment.Stands (I : Custody σ) (l : Ledger) (a : Moment σ) : Prop where
  fits : a.snapshot.Fits I l
  honest : ∀ x w, a = .act x w → x.Honest I l

def Stop.values : Stop → List Value
  | .ret v => [v]
  | .brk v => [v]
  | .fail _ => []

/-- The values that the end of a run passes on; `g` picks those of a plain end. -/
def shown (g : α → List Value) : Except Stop α → List Value
  | .ok a => g a
  | .error x => x.values

namespace Machine

variable {m : Machine σ}

/-- What begins at the moment has ended, and this is seen at the end. -/
inductive Ended (m : Machine σ) : Moment σ → Snapshot σ → Prop where
  | expr {e : Expr} {s t : State σ} {r : Outcome} : Evals m e s r t →
      Ended m (.expr e s) (t.shows (shown (fun v => [v]) r))
  | order {es : List Expr} {s t : State σ} {r : Except Stop (List Value)} : InOrder m es s r t →
      Ended m (.order es s) (t.shows (shown id r))
  | call {path : Path} {vs : List Value} {s t : State σ} {r : Outcome} : Calls m path vs s r t →
      Ended m (.call path vs s) (t.shows (shown (fun v => [v]) r))
  | run {name : String} {f : Function} {vs : List Value} {s t : State σ} {r : Outcome} :
      Applies m name f vs s r t →
      Ended m (.run name f vs s) (t.shows (shown (fun v => [v]) r))
  | handler {id : NativeId} {vs : List Value} {w w' : World σ} {r : Except Failure Value} :
      Performs m (m.handlers id vs) w r w' →
      Ended m (.handler id vs w) (w'.shows r.toOption.toList)
  | act {x : Action σ} {w w' : World σ} {r : Except Failure Value} : Performs m x w r w' →
      Ended m (.act x w) (w'.shows r.toOption.toList)

/-! A run can end in one way only: with enough fuel the evaluator gives both ends. -/

theorem eq_of_eventually {γ : Type} {c : Nat → Option γ} {x y : γ}
    (hx : ∀ᶠ n in Filter.atTop, c n = some x) (hy : ∀ᶠ n in Filter.atTop, c n = some y) : x = y := by
  obtain ⟨n, hn, hn'⟩ := (hx.and hy).exists
  exact Option.some.inj (hn.symm.trans hn')

theorem Evals.unique {e : Expr} {s t t' : State σ} {r r' : Outcome} (h : Evals m e s r t)
    (h' : Evals m e s r' t') : r = r' ∧ t = t' :=
  Prod.mk.inj (eq_of_eventually h.complete h'.complete)

theorem InOrder.unique {es : List Expr} {s t t' : State σ} {r r' : Except Stop (List Value)}
    (h : InOrder m es s r t) (h' : InOrder m es s r' t') : r = r' ∧ t = t' :=
  Prod.mk.inj (eq_of_eventually h.complete.all h'.complete.all)

theorem Calls.unique {path : Path} {vs : List Value} {s t t' : State σ} {r r' : Outcome}
    (h : Calls m path vs s r t) (h' : Calls m path vs s r' t') : r = r' ∧ t = t' :=
  Prod.mk.inj (eq_of_eventually h.complete h'.complete)

theorem Applies.unique {name : String} {f : Function} {vs : List Value} {s t t' : State σ}
    {r r' : Outcome} (h : Applies m name f vs s r t) (h' : Applies m name f vs s r' t') :
    r = r' ∧ t = t' :=
  Prod.mk.inj (eq_of_eventually h.complete h'.complete)

theorem Performs.unique {x : Action σ} {w w' w'' : World σ} {r r' : Except Failure Value}
    (h : Performs m x w r w') (h' : Performs m x w r' w'') : r = r' ∧ w' = w'' :=
  Prod.mk.inj (eq_of_eventually h.complete h'.complete)

theorem Ended.unique {a : Moment σ} {p q : Snapshot σ} (hp : Ended m a p) (hq : Ended m a q) :
    p = q := by
  cases hp with
  | expr h =>
    cases hq with
    | expr h' =>
      obtain ⟨rfl, rfl⟩ := h.unique h'
      rfl
  | order h =>
    cases hq with
    | order h' =>
      obtain ⟨rfl, rfl⟩ := h.unique h'
      rfl
  | call h =>
    cases hq with
    | call h' =>
      obtain ⟨rfl, rfl⟩ := h.unique h'
      rfl
  | run h =>
    cases hq with
    | run h' =>
      obtain ⟨rfl, rfl⟩ := h.unique h'
      rfl
  | handler h =>
    cases hq with
    | handler h' =>
      obtain ⟨rfl, rfl⟩ := h.unique h'
      rfl
  | act h =>
    cases hq with
    | act h' =>
      obtain ⟨rfl, rfl⟩ := h.unique h'
      rfl

end Machine

end Arbor
