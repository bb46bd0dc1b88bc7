import Arbor.Proofs.Eval.Containers

/-!
Containers are shared by handle.

The host at the top does what a handler does: it has containers made, evaluates expressions and calls
functions, one after the other, and goes by what came out. So any sequence of evaluations and calls is
the run of an `Action` in a new world, and what was shown of runs (`Reaches.common`) holds of all that
is found between its start and any later time. `Immutable` lists what follows for containers, and
`Delivers` how values get from one place to another as they are.
-/

set_option autoImplicit false

namespace Arbor

variable {σ : Type}

/-- A literal of a list or of a map. -/
def Expr.Makes (e : Expr) : Prop := (∃ es, e = .list es) ∨ ∃ es, e = .map es

namespace Machine

variable {m : Machine σ} {I : Custody σ} {l : Ledger}

/-- This is seen in the run that begins at the moment: at a moment that it comes to, or at the end of
what begins there. -/
def Found (m : Machine σ) (start : Moment σ) (p : Snapshot σ) : Prop :=
  ∃ a, Reaches m start a ∧ (a.snapshot = p ∨ Ended m a p)

/-- What a run shows of containers. -/
structure Immutable (m : Machine σ) (start : Moment σ) : Prop where
  /-- Wherever and whenever two containers with one handle are found, they are the same. -/
  same : ∀ {p q : Snapshot σ} {c d : Value} {h : Handle}, Found m start p → Found m start q →
    p.Has c → q.Has d → c.handle? = some h → d.handle? = some h → c = d
  /-- No container has a handle that is still free. -/
  known : ∀ {p : Snapshot σ} {c : Value} {h : Handle}, Found m start p → p.Has c →
    c.handle? = some h → h < p.world.fresh
  /-- A handle that was given away is not free again. -/
  onward : ∀ {a b : Moment σ}, Reaches m start a → Reaches m a b →
    a.snapshot.world.fresh ≤ b.snapshot.world.fresh
  /-- A literal makes a container with the first handle that is free once its parts are there. The
  handle is found nowhere else: not in the frames, not in the parts, and nowhere in the run until it
  was given away. -/
  made : ∀ {e : Expr} {s t : State σ} {v : Value}, Reaches m start (.expr e s) → e.Makes →
    Evals m e s (.ok v) t → ∃ h, v.handle? = some h ∧ s.world.fresh ≤ h ∧ t.world.fresh = h + 1 ∧
      (∀ c, (t.shows []).Has c → c.handle? ≠ some h) ∧
      (∀ c, c.Within v → c ≠ v → c.handle? ≠ some h) ∧
      ∀ p, Found m start p → p.world.fresh ≤ h → ∀ c, p.Has c → c.handle? ≠ some h

/-- Values are passed on as they are. -/
structure Delivers (m : Machine σ) : Prop where
  read : ∀ {name : String} {s t : State σ} {v : Value} {r : Outcome},
    s.scopes.lookup? name = some v → Evals m (.var name) s r t → r = .ok v
  assigned : ∀ {name : String} {e : Expr} {s t u : State σ} {v x : Value},
    Evals m e s (.ok v) u → Evals m (.assign name e) s (.ok x) t →
      x = v ∧ t.scopes.lookup? name = some v
  /-- A call is made with the values of its arguments, -/
  arguments : ∀ {path : Path} {es : List Expr} {s t : State σ} {vs : List Value},
    InOrder m es s (.ok vs) t → Reaches m (.expr (.call path es) s) (.call path vs t)
  /-- the body of a function finds them in its frame under the names of the parameters, of which the
  last one of a name counts, -/
  bound : ∀ {path : Path} {vs : List Value} {s : State σ} {ps : List String} {es : List Expr}
      {held : Held}, m.registry.acquire path s.world.held = .ok (.defined ps (some es), held) →
    vs.length = ps.length → ∃ u, Reaches m (.call path vs s) (.order es u) ∧
      ∀ {before after : List (String × Value)} {name : String} {v : Value},
        ps.zip vs = before ++ (name, v) :: after → name ∉ after.map Prod.fst →
        u.scopes.lookup? name = some v
  /-- and a handler gets them as a list. -/
  handed : ∀ {path : Path} {vs : List Value} {s : State σ} {id : NativeId} {held : Held},
    m.registry.acquire path s.world.held = .ok (.native id vs.length true, held) →
    ∃ w, Reaches m (.call path vs s) (.handler id vs w)
  returns : ∀ {e : Expr} {s t u : State σ} {v : Value} {r : Outcome},
    Evals m e s (.ok v) u → Evals m (.ret e) s r t → r = .error (.ret v)
  /-- A return ends the call with its value. -/
  returned : ∀ {path : Path} {vs : List Value} {s t u : State σ} {ps : List String}
      {es : List Expr} {held : Held} {v : Value} {r : Outcome},
    m.registry.acquire path s.world.held = .ok (.defined ps (some es), held) →
    vs.length = ps.length →
    InOrder m es ((m.enter path (.defined ps (some es)) vs.length held s).push
      (Frame.seed ps vs false)) (.error (.ret v)) u →
    Calls m path vs s r t → r = .ok v
  breaks : ∀ {e : Expr} {s t u : State σ} {v : Value} {r : Outcome},
    Evals m e s (.ok v) u → Evals m (.brk e) s r t → r = .error (.brk v)
  broken : ∀ {body : Expr} {s t u : State σ} {v : Value} {r : Outcome},
    Evals m body s (.error (.brk v)) u → Evals m (.loop body) s r t → r = .ok v
  block : ∀ {es : List Expr} {s t u : State σ} {vs : List Value} {v : Value} {r : Outcome},
    InOrder m es s (.ok vs) u → vs.getLast? = some v → Evals m (.block es) s r t → r = .ok v
  chosen : ∀ {test a b : Expr} {yes : Bool} {s t u w : State σ} {v : Value} {r : Outcome},
    Evals m test s (.ok (.bool yes)) u → Evals m (if yes then a else b) u (.ok v) w →
    Evals m (.cond test a b) s r t → r = .ok v

/-! ## Values on their way -/

theorem delivers (m : Machine σ) : Delivers m where
  read hl h := ((Evals.var hl).unique h).1.symm
  assigned he h := by
    cases h with
    | assign he' hi =>
      cases (he.unique he').1
      exact ⟨rfl, Scopes.lookup?_insert hi⟩
  arguments hes := .single (.call hes)
  bound {path vs s ps es held} hf hlen := by
    refine ⟨_, .tail (.single (.enter hf)) (.defined hlen), ?_⟩
    intro before after name v hzip hlast
    refine Scopes.lookup?_top ?_
    rw [Frame.seed, Frame.get?, hzip]
    exact Table.find?_ofPairs before after hlast
  handed hf := ⟨_, .tail (.single (.enter hf)) (.native rfl)⟩
  returns he h := ((Evals.ret he).unique h).1.symm
  returned hf hlen hes h := ((Calls.returns hf (.returned hlen hes)).unique h).1.symm
  breaks he h := ((Evals.brk he).unique h).1.symm
  broken hb h := ((Evals.loopBreak hb).unique h).1.symm
  block {es s t u vs v r} hes hv h := by
    have hr := ((Evals.block hes).unique h).1.symm
    rw [List.getLastD_eq_getLast?, hv] at hr
    exact hr
  chosen {test a b yes s t u w v r} ht hb h := by
    cases yes with
    | true => exact ((Evals.condTrue ht hb).unique h).1.symm
    | false => exact ((Evals.condFalse ht hb).unique h).1.symm

/-! ## Containers in a run -/

section Run
variable {start : Moment σ}

theorem lies_of_found (hm : m.Honest I) (hstart : start.Stands I l) {p q : Snapshot σ}
    (hp : Found m start p) (hq : Found m start q) : ∃ l', p.Lies l' ∧ q.Lies l' := by
  obtain ⟨a, ha, hpa⟩ := hp
  obtain ⟨b, hb, hqb⟩ := hq
  obtain ⟨l', -, hsa, hsb⟩ := Reaches.common hm ha hb hstart
  have hseen : ∀ {c : Moment σ} {x : Snapshot σ}, Shows m l' c → c.snapshot = x ∨ Ended m c x →
      x.Lies l' := by
    rintro c x hs (rfl | hx)
    · exact hs.here
    · exact hs.ended x hx
  exact ⟨l', hseen hsa hpa, hseen hsb hqb⟩

theorem fits_of_found (hm : m.Honest I) (hstart : start.Stands I l) {p : Snapshot σ}
    (hp : Found m start p) : ∃ l', p.Fits I l' := by
  obtain ⟨a, ha, hpa⟩ := hp
  obtain ⟨l', -, hstands⟩ := ha.stands hm hstart
  obtain rfl | hend := hpa
  · exact ⟨l', hstands.fits⟩
  · obtain ⟨l'', -, hfits, -⟩ := hend.recorded hm hstands
    exact ⟨l'', hfits⟩

/-- A container whose parts are there, with the handle that is free then. -/
theorem made_of_parts (hm : m.Honest I) {es : List Expr} {s u : State σ} {vs : List Value}
    {v : Value} (hs : (s.shows []).Fits I l) (hes : InOrder m es s (.ok vs) u)
    (hv : ∀ c, c.Within v → c ≠ v → ∃ x ∈ vs, c.Within x) :
    s.world.fresh ≤ u.world.fresh ∧
      (∀ c, (u.skipHandle.shows []).Has c → c.handle? ≠ some u.world.fresh) ∧
      ∀ c, c.Within v → c ≠ v → c.handle? ≠ some u.world.fresh := by
  obtain ⟨l', hl, hfits, -⟩ := hes.recorded hm hs
  refine ⟨?_, ?_, ?_⟩
  · have hlength := hl.length_le
    rw [hs.size, hfits.size] at hlength
    exact hlength
  · rintro c (⟨x, hx, -⟩ | hc) hh
    · cases hx
    · exact Nat.lt_irrefl _ (hfits.lt (.inr hc) hh)
  · intro c hc hne hh
    exact Nat.lt_irrefl _ (hfits.lt (.inl (hv c hc hne)) hh)

theorem made_of_literal (hm : m.Honest I) {e : Expr} {s t : State σ} {v : Value}
    (hs : (s.shows []).Fits I l) (he : e.Makes) (h : Evals m e s (.ok v) t) :
    ∃ k, v.handle? = some k ∧ s.world.fresh ≤ k ∧ t.world.fresh = k + 1 ∧
      (∀ c, (t.shows []).Has c → c.handle? ≠ some k) ∧
      ∀ c, c.Within v → c ≠ v → c.handle? ≠ some k := by
  obtain ⟨es, rfl⟩ | ⟨es, rfl⟩ := he
  · cases h with
    | @list _ _ u vs hes =>
      have hin : ∀ c : Value, c.Within (.list u.world.fresh vs) → c ≠ .list u.world.fresh vs →
          ∃ x ∈ vs, c.Within x := by
        intro c hc hne
        cases hc with
        | here => exact absurd rfl hne
        | element hx hc => exact ⟨_, hx, hc⟩
      obtain ⟨hle, hframes, hparts⟩ := made_of_parts hm hs hes hin
      exact ⟨_, rfl, hle, rfl, hframes, hparts⟩
  · cases h with
    | @map _ _ u vs hes =>
      let fields := Table.ofPairs ((es.filterMap Entry.key?).zip vs)
      have hfields : Table.All (· ∈ vs) fields := Table.all_ofPairs _ fun _ hx => hx
      have hin : ∀ c : Value, c.Within (.object u.world.fresh fields) →
          c ≠ .object u.world.fresh fields → ∃ x ∈ vs, c.Within x := by
        intro c hc hne
        cases hc with
        | here => exact absurd rfl hne
        | field hx hc => exact ⟨_, hfields _ hx, hc⟩
      obtain ⟨hle, hframes, hparts⟩ := made_of_parts hm hs hes hin
      exact ⟨_, rfl, hle, rfl, hframes, hparts⟩

theorem immutable_of_stands (hm : m.Honest I) (hstart : start.Stands I l) :
    Immutable m start where
  same {p q c d h} hp hq hc hd hch hdh := by
    obtain ⟨l', hlp, hlq⟩ := lies_of_found hm hstart hp hq
    exact Option.some.inj ((hlp.getElem? hc hch).symm.trans (hlq.getElem? hd hdh))
  known {p c h} hp hc hch := by
    obtain ⟨l', hfits⟩ := fits_of_found hm hstart hp
    exact hfits.lt hc hch
  onward {a b} ha hab := by
    obtain ⟨l', -, hsa⟩ := ha.stands hm hstart
    obtain ⟨l'', hl, hsb⟩ := hab.stands hm hsa
    rw [← hsa.fits.size, ← hsb.fits.size]
    exact hl.length_le
  made {e s t v} hs he h := by
    obtain ⟨l', -, hstands⟩ := hs.stands hm hstart
    obtain ⟨k, hk, hle, hnext, hframes, hparts⟩ := made_of_literal hm hstands.fits he h
    refine ⟨k, hk, hle, hnext, hframes, hparts, ?_⟩
    intro p hp hpk c hc hck
    obtain ⟨l'', hfits⟩ := fits_of_found hm hstart hp
    exact Nat.lt_irrefl _ (Nat.lt_of_lt_of_le (hfits.lt hc hck) hpk)

end Run

/-- In any sequence of evaluations and calls by a host, containers do not change: two of them with one
handle are the same, wherever and whenever they are found, and each literal makes one with a handle
that is found nowhere else. Names, arguments, returns, breaks, blocks and conditions pass values on as
they are. Handlers, and the host at the top, come to new containers only by having them made. -/
theorem containers_immutable (m : Machine σ) (I : Custody σ) (hm : m.Honest I) (host : σ)
    (hhost : I.keeps [] host) (program : Action σ) (hprogram : program.Honest I []) :
    Immutable m (.act program (World.start host)) ∧ Delivers m := by
  refine ⟨immutable_of_stands (I := I) (l := []) hm ⟨?_, ?_⟩, delivers m⟩
  · exact ⟨⟨nofun, Scopes.all_empty⟩, rfl, hhost⟩
  · rintro _ _ ⟨⟩
    exact hprogram

/-! An instance: the host has a list made and passes it to `m.f`, which puts it into a list twice and
has a handler put that into one of its own. -/

def pairing : Machine Unit where
  registry := (Registry.empty.register
      ((Library.empty "host").add "pair" (.native 0 1 true))).register
    ((Library.empty "m").add "f" (.defined ["x"]
      (some [.call ⟨"host", "pair"⟩ [.list [.var "x", .var "x"]]])))
  handlers := fun _ vs =>
    match vs with
    | [x] => .list [x, x] fun v => .reply v
    | _ => .reply .none
  traced := false

/-- Nothing is known of a host without a state. -/
def idleCustody : Custody Unit := ⟨fun _ _ => True, fun _ _ => trivial⟩

theorem pairing_honest : pairing.Honest idleCustody := by
  intro id vs l hvs
  match vs with
  | [x] =>
    have hpair : ∀ v ∈ [x, x], v.Fits l := by
      intro v hv
      exact hvs v (by simpa using hv)
    exact ⟨hpair, Value.fits_list hpair⟩
  | [] => exact Value.fits_scalar rfl
  | _ :: _ :: _ => exact Value.fits_scalar rfl

def pairingProgram : Action Unit :=
  .list [] fun v => .call ⟨"m", "f"⟩ [v] fun
    | .ok x => .evaluate (.list []) fun _ => .reply x
    | .error f => .refuse f

theorem pairingProgram_honest : pairingProgram.Honest idleCustody [] := by
  have hlist : (Value.list 0 []).Fits [.list 0 []] :=
    Value.fits_list (l := []) (List.forall_mem_nil _)
  refine ⟨List.forall_mem_nil _, List.forall_mem_singleton.2 hlist, ?_⟩
  intro l r _ hr
  cases r with
  | error f => trivial
  | ok x =>
    intro l' _ hl _
    exact (hr x rfl).mono hl

theorem containers_immutable_pairing :
    let start : Moment Unit := .act pairingProgram (World.start ())
    let one : Value := .list 0 []
    let two : Value := .list 1 [one, one]
    (∃ w, pairing.perform 30 pairingProgram (World.start ()) = some (.ok (.list 2 [two, two]), w)) ∧
      ∀ p c, Found pairing start p → p.Has c →
        (c.handle? = some 0 → c = one) ∧ (c.handle? = some 1 → c = two) := by
  intro start one two
  have hrun : pairing.perform 30 pairingProgram (World.start ())
      = some (.ok (.list 2 [two, two]), ⟨(), [], 4, []⟩) := rfl
  have himmutable := (containers_immutable pairing idleCustody pairing_honest () trivial
    pairingProgram pairingProgram_honest).1
  have hend : Found pairing start (World.shows ⟨(), [], 4, []⟩ [.list 2 [two, two]]) :=
    ⟨start, .refl, .inr (.act ((sound pairing 30).perform hrun))⟩
  have htwo : two.Within (.list 2 [two, two]) := .element (List.mem_cons_self ..) .here
  have hone : one.Within (.list 2 [two, two]) :=
    .element (List.mem_cons_self ..) (.element (List.mem_cons_self ..) .here)
  refine ⟨⟨_, hrun⟩, fun p c hp hc => ⟨fun hh => ?_, fun hh => ?_⟩⟩
  · exact himmutable.same hp hend hc (.inl ⟨_, List.mem_singleton_self _, hone⟩) hh rfl
  · exact himmutable.same hp hend hc (.inl ⟨_, List.mem_singleton_self _, htwo⟩) hh rfl

end Machine

end Arbor
