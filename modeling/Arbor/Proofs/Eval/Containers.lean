import Arbor.Proofs.Eval.Ledger

/-!
Containers do not change.

Whatever a run shows at any two times fits one ledger, so that two containers with one handle are the
same. A run that has ended is gone through with its ledger, all that it shows on the way included
(`Recorded`). A run that goes on is at one of its moments; of two moments that it comes to, one comes
first, and what leads to it has ended or is on the way to the other (`Leads.linear`).
-/

set_option autoImplicit false

namespace Arbor.Machine

variable {σ : Type} {m : Machine σ} {I : Custody σ} {l l' : Ledger}

/-! ## Which moment comes first -/

/-- The run comes from `a` to `b`, and once what begins at `b` has ended, to `c`. -/
inductive Then (m : Machine σ) : Moment σ → Moment σ → Moment σ → Prop where
  | call {path : Path} {es : List Expr} {vs : List Value} {s t : State σ} :
      InOrder m es s (.ok vs) t →
      Then m (.expr (.call path es) s) (.order es s) (.call path vs t)
  | whenTrue {test a b : Expr} {s t : State σ} : Evals m test s (.ok (.bool true)) t →
      Then m (.expr (.cond test a b) s) (.expr test s) (.expr a t)
  | whenFalse {test a b : Expr} {s t : State σ} : Evals m test s (.ok (.bool false)) t →
      Then m (.expr (.cond test a b) s) (.expr test s) (.expr b t)
  | again {e : Expr} {s t : State σ} {v : Value} : Evals m e s (.ok v) t →
      Then m (.expr (.loop e) s) (.expr e s) (.expr (.loop e) t)
  | tail {e : Expr} {es : List Expr} {s t : State σ} {v : Value} : Evals m e s (.ok v) t →
      Then m (.order (e :: es) s) (.expr e s) (.order es t)
  | calledBack {path : Path} {vs : List Value} {next : Except Failure Value → Action σ}
      {w : World σ} {r : Outcome} {t : State σ} : Calls m path vs (State.start w) r t →
      Then m (.act (.call path vs next) w) (.call path vs (State.start w))
        (.act (next (settle t.calls.reverse r)) t.world)
  | evaluated {e : Expr} {next : Except Failure Value → Action σ} {w : World σ} {r : Outcome}
      {t : State σ} : Evals m e (State.start w) r t →
      Then m (.act (.evaluate e next) w) (.expr e (State.start w))
        (.act (next (settle t.calls.reverse r)) t.world)

theorem Then.leads {a b c d : Moment σ} (h : Then m a b c) (hd : Leads m a d) : d = b ∨ d = c := by
  cases h with
  | call hes =>
    cases hd with
    | arguments => exact .inl rfl
    | call hes' =>
      obtain ⟨hvs, rfl⟩ := hes.unique hes'
      cases hvs
      exact .inr rfl
  | whenTrue ht =>
    cases hd with
    | test => exact .inl rfl
    | whenTrue ht' =>
      obtain ⟨-, rfl⟩ := ht.unique ht'
      exact .inr rfl
    | whenFalse ht' => cases (ht.unique ht').1
  | whenFalse ht =>
    cases hd with
    | test => exact .inl rfl
    | whenFalse ht' =>
      obtain ⟨-, rfl⟩ := ht.unique ht'
      exact .inr rfl
    | whenTrue ht' => cases (ht.unique ht').1
  | again hb =>
    cases hd with
    | body => exact .inl rfl
    | again hb' =>
      obtain ⟨-, rfl⟩ := hb.unique hb'
      exact .inr rfl
  | tail he =>
    cases hd with
    | head => exact .inl rfl
    | tail he' =>
      obtain ⟨-, rfl⟩ := he.unique he'
      exact .inr rfl
  | calledBack hc =>
    cases hd with
    | callBack => exact .inl rfl
    | calledBack hc' =>
      obtain ⟨rfl, rfl⟩ := hc.unique hc'
      exact .inr rfl
  | evaluated he =>
    cases hd with
    | evaluate => exact .inl rfl
    | evaluated he' =>
      obtain ⟨rfl, rfl⟩ := he.unique he'
      exact .inr rfl

/-- A step either comes after a part that has ended, or is the first one. -/
theorem Leads.after {a c : Moment σ} (h : Leads m a c) :
    (∃ b, Then m a b c) ∨ ∀ d, Leads m a d → d = c ∨ Then m a c d := by
  cases h with
  | call hes => exact .inl ⟨_, .call hes⟩
  | whenTrue ht => exact .inl ⟨_, .whenTrue ht⟩
  | whenFalse ht => exact .inl ⟨_, .whenFalse ht⟩
  | again hb => exact .inl ⟨_, .again hb⟩
  | tail he => exact .inl ⟨_, .tail he⟩
  | calledBack hc => exact .inl ⟨_, .calledBack hc⟩
  | evaluated he => exact .inl ⟨_, .evaluated he⟩
  | arguments =>
    refine .inr fun d hd => ?_
    cases hd with
    | arguments => exact .inl rfl
    | call hes => exact .inr (.call hes)
  | test =>
    refine .inr fun d hd => ?_
    cases hd with
    | test => exact .inl rfl
    | whenTrue ht => exact .inr (.whenTrue ht)
    | whenFalse ht => exact .inr (.whenFalse ht)
  | body =>
    refine .inr fun d hd => ?_
    cases hd with
    | body => exact .inl rfl
    | again hb => exact .inr (.again hb)
  | head =>
    refine .inr fun d hd => ?_
    cases hd with
    | head => exact .inl rfl
    | tail he => exact .inr (.tail he)
  | callBack =>
    refine .inr fun d hd => ?_
    cases hd with
    | callBack => exact .inl rfl
    | calledBack hc => exact .inr (.calledBack hc)
  | evaluate =>
    refine .inr fun d hd => ?_
    cases hd with
    | evaluate => exact .inl rfl
    | evaluated he => exact .inr (.evaluated he)
  | enter hf =>
    refine .inr fun d hd => ?_
    cases hd with
    | enter hf' =>
      cases hf.symm.trans hf'
      exact .inl rfl
  | acquire hf =>
    refine .inr fun d hd => ?_
    cases hd with
    | acquire hf' =>
      cases hf.symm.trans hf'
      exact .inl rfl
    | acquireRefused hc => cases hf.symm.trans hc
  | acquireRefused hc =>
    refine .inr fun d hd => ?_
    cases hd with
    | acquire hf => cases hc.symm.trans hf
    | acquireRefused hc' =>
      cases hc.symm.trans hc'
      exact .inl rfl
  | _ =>
    refine .inr fun d hd => ?_
    cases hd
    exact .inl rfl

/-- Of two moments that a run comes to next, one comes first. -/
theorem Leads.linear {a b c : Moment σ} (hb : Leads m a b) (hc : Leads m a c) :
    b = c ∨ Then m a b c ∨ Then m a c b := by
  obtain ⟨d, hd⟩ | hfirst := hb.after
  · obtain rfl | rfl := hd.leads hc
    · exact .inr (.inr hd)
    · exact .inl rfl
  · obtain rfl | hthen := hfirst c hc
    · exact .inl rfl
    · exact .inr (.inl hthen)

/-! ## Runs that have ended -/

/-- What is seen at the moment is in the ledger, and so is what is seen at the end of what begins
there, if that has ended. -/
structure Shows (m : Machine σ) (l : Ledger) (a : Moment σ) : Prop where
  here : a.snapshot.Lies l
  ended : ∀ p, Ended m a p → p.Lies l

theorem Shows.mono {a : Moment σ} (h : Shows m l a) (hl : l <+: l') : Shows m l' a :=
  ⟨h.here.mono hl, fun p hp => (h.ended p hp).mono hl⟩

/-- All that is seen in the run from the moment on is in the ledger. -/
def Stays (m : Machine σ) (l : Ledger) (a : Moment σ) : Prop := Throughout m (Shows m l) a

theorem Stays.mono {a : Moment σ} (h : Stays m l a) (hl : l <+: l') : Stays m l' a :=
  fun b hb => (h b hb).mono hl

/-- The run ends as given, with a ledger that has grown into one for all that was seen. -/
def Recorded (m : Machine σ) (I : Custody σ) (l : Ledger) (a : Moment σ) (q : Snapshot σ) : Prop :=
  ∃ l', l <+: l' ∧ q.Fits I l' ∧ Stays m l' a

namespace Recorded

variable {a b c : Moment σ} {p p' q : Snapshot σ}

theorem weaken (hl : l <+: l') (h : Recorded m I l' a q) : Recorded m I l a q := by
  obtain ⟨l'', hl', hq, hs⟩ := h
  exact ⟨l'', hl.trans hl', hq, hs⟩

theorem mk (hend : Ended m a q) (ha : a.snapshot.Lies l) (hl : l <+: l') (hq : q.Fits I l')
    (hleads : ∀ b, Leads m a b → Stays m l' b) : Recorded m I l a q := by
  refine ⟨l', hl, hq, fun b hb => ?_⟩
  obtain rfl | ⟨c, hac, hcb⟩ := Relation.ReflTransGen.cases_head hb
  · refine ⟨ha.mono hl, fun p hp => ?_⟩
    rw [← hend.unique hp]
    exact hq.toLies
  · exact hleads c hac b hcb

/-- A run that ends at once. -/
theorem leaf (hend : Ended m a q) (ha : a.snapshot.Lies l) (hq : q.Fits I l)
    (hleads : ∀ b, ¬ Leads m a b) : Recorded m I l a q :=
  mk hend ha (List.prefix_refl l) hq fun b hb => absurd hb (hleads b)

/-- A run of one part, after which the ledger may grow again. -/
theorem one (hend : Ended m a q) (ha : a.snapshot.Lies l) (h : Recorded m I l b p)
    (hleads : ∀ c, Leads m a c → c = b)
    (hq : ∀ l', l <+: l' → p.Fits I l' → ∃ l'', l' <+: l'' ∧ q.Fits I l'') :
    Recorded m I l a q := by
  obtain ⟨l', hl, hp, hs⟩ := h
  obtain ⟨l'', hl', hq'⟩ := hq l' hl hp
  refine mk hend ha (hl.trans hl') hq' fun c hc => ?_
  rw [hleads c hc]
  exact hs.mono hl'

theorem one' (hend : Ended m a q) (ha : a.snapshot.Lies l) (h : Recorded m I l b p)
    (hleads : ∀ c, Leads m a c → c = b) (hq : ∀ l', l <+: l' → p.Fits I l' → q.Fits I l') :
    Recorded m I l a q :=
  one hend ha h hleads fun l' hl hp => ⟨l', List.prefix_refl l', hq l' hl hp⟩

/-- A run of two parts. -/
theorem two (hend : Ended m a q) (ha : a.snapshot.Lies l) (h : Recorded m I l b p)
    (hthen : Then m a b c)
    (hc : ∀ l', l <+: l' → p.Fits I l' → Recorded m I l' c p' )
    (hq : ∀ l' l'', p.Fits I l' → l' <+: l'' → p'.Fits I l'' → q.Fits I l'') :
    Recorded m I l a q := by
  obtain ⟨l', hl, hp, hs⟩ := h
  obtain ⟨l'', hl', hp', hs'⟩ := hc l' hl hp
  refine mk hend ha (hl.trans hl') (hq l' l'' hp hl' hp') fun d hd => ?_
  obtain rfl | rfl := hthen.leads hd
  · exact hs.mono hl'
  · exact hs'

/-- What is known of a handler's course is known of the handler. -/
theorem handler {id : NativeId} {vs : List Value} {w w' : World σ} {r : Except Failure Value}
    (hp : Performs m (m.handlers id vs) w r w') (hvs : ∀ v ∈ vs, v.Fits l)
    (h : Recorded m I l (.act (m.handlers id vs) w) (w'.shows r.toOption.toList)) :
    Recorded m I l (.handler id vs w) (w'.shows r.toOption.toList) :=
  one' (.handler hp) ⟨hvs, Scopes.all_empty⟩ h (fun _ hc => by cases hc; rfl) fun _ _ hq => hq

end Recorded

/-! The rules with two parts lead to the first one only where it stops the others. -/

theorem eq_of_leads_loop {e : Expr} {s t : State σ} {x : Stop} (hb : Evals m e s (.error x) t)
    {c : Moment σ} (hc : Leads m (.expr (.loop e) s) c) : c = .expr e s := by
  cases hc with
  | body => rfl
  | again hb' => cases (hb.unique hb').1

theorem eq_of_leads_call {path : Path} {vs : List Value} {s : State σ} {f : Function} {held : Held}
    (hf : m.registry.acquire path s.world.held = .ok (f, held)) {c : Moment σ}
    (hc : Leads m (.call path vs s) c) :
    c = .run path.item f vs (m.enter path f vs.length held s) := by
  cases hc with
  | enter hf' =>
    cases hf.symm.trans hf'
    rfl

theorem enter_fresh (m : Machine σ) (path : Path) (f : Function) (k : Nat) (held : Held)
    (s : State σ) : (m.enter path f k held s).world.fresh = s.world.fresh := note_fresh ..

theorem leave_fresh (m : Machine σ) (f : Function) (e : Unit → Event) (s : State σ) :
    (m.leave f e s).world.fresh = s.world.fresh := note_fresh ..

theorem fits_settle {stack : List Path} {r : Outcome} (h : ∀ v ∈ shown (fun v => [v]) r, v.Fits l) :
    ∀ v, settle stack r = .ok v → v.Fits l := by
  intro v hv
  match r, h, hv with
  | .ok x, h, hv =>
    cases hv
    exact (h x (List.mem_singleton_self x)).orNone

/-- The state in which a function body begins: its frame has the arguments and nothing else. -/
theorem fits_seeded {s : State σ} {vs : List Value} (h : (s.shows vs).Fits I l) (ps : List String) :
    ((s.push (Frame.seed ps vs false)).shows []).Fits I l :=
  ⟨⟨nofun, h.scopes.push (Table.all_ofPairs ps h.values)⟩, h.size, h.host⟩

/-- A context of its own has no frames. -/
theorem fits_apart {p : Snapshot σ} (h : p.Fits I l) {vs : List Value} (hvs : ∀ v ∈ vs, v.Fits l) :
    Snapshot.Fits I l ⟨vs, Scopes.empty, p.world⟩ :=
  ⟨⟨hvs, Scopes.all_empty⟩, h.size, h.host⟩

mutual

theorem Evals.recorded (hm : m.Honest I) {e : Expr} {s t : State σ} {r : Outcome} :
    Evals m e s r t → ∀ {l : Ledger}, (s.shows []).Fits I l →
      Recorded m I l (.expr e s) (t.shows (shown (fun v => [v]) r))
  | .absent, _, hs => .leaf (.expr .absent) hs.toLies (hs.of_value (Value.fits_scalar rfl)) nofun
  | .emptyBlock, _, hs =>
    .leaf (.expr .emptyBlock) hs.toLies (hs.of_value (Value.fits_scalar rfl)) nofun
  | .empty hb, _, hs => .leaf (.expr (.empty hb)) hs.toLies hs nofun
  | .string, _, hs => .leaf (.expr .string) hs.toLies (hs.of_value (Value.fits_scalar rfl)) nofun
  | .integer, _, hs => .leaf (.expr .integer) hs.toLies (hs.of_value (Value.fits_scalar rfl)) nofun
  | .float, _, hs => .leaf (.expr .float) hs.toLies (hs.of_value (Value.fits_scalar rfl)) nofun
  | .bool, _, hs => .leaf (.expr .bool) hs.toLies (hs.of_value (Value.fits_scalar rfl)) nofun
  | .var hl, _, hs =>
    .leaf (.expr (.var hl)) hs.toLies (hs.of_value (Scopes.all_search hs.scopes hl)) nofun
  | .unbound hl, _, hs => .leaf (.expr (.unbound hl)) hs.toLies hs nofun
  | .assign he hi, _, hs =>
    .one' (.expr (.assign he hi)) hs.toLies (he.recorded hm hs) (fun _ h => by cases h; rfl)
      fun _ _ hp => hp.of_scopes (hp.scopes.insert (hp.values _ (List.mem_singleton_self _)) hi)
  | .assignNowhere he hi, _, hs =>
    .one' (.expr (.assignNowhere he hi)) hs.toLies (he.recorded hm hs)
      (fun _ h => by cases h; rfl) fun _ _ hp => hp.of_values nofun
  | .assignStop he, _, hs =>
    .one' (.expr (.assignStop he)) hs.toLies (he.recorded hm hs) (fun _ h => by cases h; rfl)
      fun _ _ hp => hp
  | .block hes, _, hs =>
    .one' (.expr (.block hes)) hs.toLies (hes.recorded hm hs) (fun _ h => by cases h; rfl)
      fun _ _ hp => hp.of_value (Value.fits_getLastD hp.values)
  | .blockStop hes, _, hs =>
    .one' (.expr (.blockStop hes)) hs.toLies (hes.recorded hm hs) (fun _ h => by cases h; rfl)
      fun _ _ hp => hp
  | .list hes, _, hs =>
    .one (.expr (.list hes)) hs.toLies (hes.recorded hm hs) (fun _ h => by cases h; rfl)
      fun _ _ hp => ⟨_, List.prefix_append .., hp.made (hp.size ▸ Value.fits_list hp.values)⟩
  | .listStop hes, _, hs =>
    .one' (.expr (.listStop hes)) hs.toLies (hes.recorded hm hs) (fun _ h => by cases h; rfl)
      fun _ _ hp => hp
  | .map hes, _, hs =>
    .one (.expr (.map hes)) hs.toLies (hes.recorded hm hs) (fun _ h => by cases h; rfl)
      fun _ _ hp => ⟨_, List.prefix_append ..,
        hp.made (hp.size ▸ Value.fits_object (Table.all_ofPairs _ hp.values))⟩
  | .mapStop hes, _, hs =>
    .one' (.expr (.mapStop hes)) hs.toLies (hes.recorded hm hs) (fun _ h => by cases h; rfl)
      fun _ _ hp => hp
  | .call hes hc, _, hs =>
    .two (.expr (.call hes hc)) hs.toLies (hes.recorded hm hs) (.call hes)
      (fun _ _ hp => hc.recorded hm hp) fun _ _ _ _ hp => hp
  | .callStop hes, _, hs => by
    refine .one' (.expr (.callStop hes)) hs.toLies (hes.recorded hm hs) ?_ fun _ _ hp => hp
    intro c hc
    cases hc with
    | arguments => rfl
    | call hes' => cases (hes.unique hes').1
  | .condTrue ht ha, _, hs =>
    .two (.expr (.condTrue ht ha)) hs.toLies (ht.recorded hm hs) (.whenTrue ht)
      (fun _ _ hp => ha.recorded hm (hp.of_values nofun)) fun _ _ _ _ hp => hp
  | .condFalse ht hb, _, hs =>
    .two (.expr (.condFalse ht hb)) hs.toLies (ht.recorded hm hs) (.whenFalse ht)
      (fun _ _ hp => hb.recorded hm (hp.of_values nofun)) fun _ _ _ _ hp => hp
  | .condOther ht hv, _, hs => by
    refine .one' (.expr (.condOther ht hv)) hs.toLies (ht.recorded hm hs) ?_
      fun _ _ hp => hp.of_values nofun
    intro c hc
    cases hc with
    | test => rfl
    | whenTrue ht' =>
      cases (ht.unique ht').1
      exact absurd rfl hv
    | whenFalse ht' =>
      cases (ht.unique ht').1
      exact absurd rfl hv
  | .condStop ht, _, hs => by
    refine .one' (.expr (.condStop ht)) hs.toLies (ht.recorded hm hs) ?_ fun _ _ hp => hp
    intro c hc
    cases hc with
    | test => rfl
    | whenTrue ht' => cases (ht.unique ht').1
    | whenFalse ht' => cases (ht.unique ht').1
  | .loopAgain hb hl, _, hs =>
    .two (.expr (.loopAgain hb hl)) hs.toLies (hb.recorded hm hs) (.again hb)
      (fun _ _ hp => hl.recorded hm (hp.of_values nofun)) fun _ _ _ _ hp => hp
  | .loopBreak hb, _, hs =>
    .one' (.expr (.loopBreak hb)) hs.toLies (hb.recorded hm hs) (fun _ h => eq_of_leads_loop hb h)
      fun _ _ hp => hp
  | .loopReturn hb, _, hs =>
    .one' (.expr (.loopReturn hb)) hs.toLies (hb.recorded hm hs) (fun _ h => eq_of_leads_loop hb h)
      fun _ _ hp => hp
  | .loopFail hb, _, hs =>
    .one' (.expr (.loopFail hb)) hs.toLies (hb.recorded hm hs) (fun _ h => eq_of_leads_loop hb h)
      fun _ _ hp => hp
  | .ret he, _, hs =>
    .one' (.expr (.ret he)) hs.toLies (he.recorded hm hs) (fun _ h => by cases h; rfl)
      fun _ _ hp => hp
  | .retStop he, _, hs =>
    .one' (.expr (.retStop he)) hs.toLies (he.recorded hm hs) (fun _ h => by cases h; rfl)
      fun _ _ hp => hp
  | .brk he, _, hs =>
    .one' (.expr (.brk he)) hs.toLies (he.recorded hm hs) (fun _ h => by cases h; rfl)
      fun _ _ hp => hp
  | .brkStop he, _, hs =>
    .one' (.expr (.brkStop he)) hs.toLies (he.recorded hm hs) (fun _ h => by cases h; rfl)
      fun _ _ hp => hp

theorem InOrder.recorded (hm : m.Honest I) {es : List Expr} {s t : State σ}
    {r : Except Stop (List Value)} : InOrder m es s r t → ∀ {l : Ledger}, (s.shows []).Fits I l →
      Recorded m I l (.order es s) (t.shows (shown id r))
  | .nil, _, hs => .leaf (.order .nil) hs.toLies hs nofun
  | .cons he hes, _, hs =>
    .two (.order (.cons he hes)) hs.toLies (he.recorded hm hs) (.tail he)
      (fun _ _ hp => hes.recorded hm (hp.of_values nofun)) fun _ _ hp hl hp' =>
        hp'.of_values (List.forall_mem_cons.2
          ⟨(hp.values _ (List.mem_singleton_self _)).mono hl, hp'.values⟩)
  | .later he hes, _, hs =>
    .two (.order (.later he hes)) hs.toLies (he.recorded hm hs) (.tail he)
      (fun _ _ hp => hes.recorded hm (hp.of_values nofun)) fun _ _ _ _ hp => hp
  | .stop he, _, hs => by
    refine .one' (.order (.stop he)) hs.toLies (he.recorded hm hs) ?_ fun _ _ hp => hp
    intro c hc
    cases hc with
    | head => rfl
    | tail he' => cases (he.unique he').1

theorem Calls.recorded (hm : m.Honest I) {path : Path} {vs : List Value} {s t : State σ}
    {r : Outcome} : Calls m path vs s r t → ∀ {l : Ledger}, (s.shows vs).Fits I l →
      Recorded m I l (.call path vs s) (t.shows (shown (fun v => [v]) r))
  | .unavailable hc, _, hs => by
    refine .leaf (.call (.unavailable hc)) hs.toLies (hs.of_values nofun) ?_
    intro c h
    cases h with
    | enter hf => cases hc.symm.trans hf
  | .returns hf ha, _, hs =>
    .one' (.call (.returns hf ha)) hs.toLies
      (ha.recorded hm (hs.of_world (enter_fresh ..) (enter_host ..)))
      (fun _ h => eq_of_leads_call hf h)
      fun _ _ hp => hp.of_world (leave_fresh ..) (leave_host ..)
  | .fails hf ha, _, hs =>
    .one' (.call (.fails hf ha)) hs.toLies
      (ha.recorded hm (hs.of_world (enter_fresh ..) (enter_host ..)))
      (fun _ h => eq_of_leads_call hf h)
      fun _ _ hp => hp.of_world (leave_fresh ..) (leave_host ..)

theorem Applies.recorded (hm : m.Honest I) {name : String} {f : Function} {vs : List Value}
    {s t : State σ} {r : Outcome} : Applies m name f vs s r t → ∀ {l : Ledger},
      (s.shows vs).Fits I l →
      Recorded m I l (.run name f vs s) (t.shows (shown (fun v => [v]) r))
  | .definedArity ha, _, hs => by
    refine .leaf (.run (.definedArity ha)) hs.toLies (hs.of_values nofun) ?_
    intro c h
    cases h with
    | defined hlen => exact ha hlen
  | .bodyless ha, _, hs =>
    .leaf (.run (.bodyless ha)) hs.toLies (hs.of_value (Value.fits_scalar rfl)) nofun
  | .plain ha hes, _, hs =>
    .one' (.run (.plain ha hes)) hs.toLies (hes.recorded hm (fits_seeded hs _))
      (fun _ h => by cases h; rfl)
      fun _ _ hp => (hp.of_scopes hp.scopes.pop).of_value (Value.fits_getLastD hp.values)
  | .returned ha hes, _, hs =>
    .one' (.run (.returned ha hes)) hs.toLies (hes.recorded hm (fits_seeded hs _))
      (fun _ h => by cases h; rfl) fun _ _ hp => hp.of_scopes hp.scopes.pop
  | .broke ha hes, _, hs =>
    .one' (.run (.broke ha hes)) hs.toLies (hes.recorded hm (fits_seeded hs _))
      (fun _ h => by cases h; rfl) fun _ _ hp => (hp.of_scopes hp.scopes.pop).of_values nofun
  | .failed ha hes, _, hs =>
    .one' (.run (.failed ha hes)) hs.toLies (hes.recorded hm (fits_seeded hs _))
      (fun _ h => by cases h; rfl) fun _ _ hp => hp.of_scopes hp.scopes.pop
  | .nativeArity ha, _, hs => by
    refine .leaf (.run (.nativeArity ha)) hs.toLies (hs.of_values nofun) ?_
    intro c h
    cases h with
    | native hlen => exact ha hlen
  | .unhandled ha, _, hs => .leaf (.run (.unhandled ha)) hs.toLies (hs.of_values nofun) nofun
  | .replied ha hp, _, hs => by
    have hact := hp.recorded hm (hm _ _ _ hs.values) (fits_apart hs nofun)
    have hhandler := Recorded.handler hp hs.values hact
    refine .one' (.run (.replied ha hp)) hs.toLies hhandler (fun _ h => by cases h; rfl) ?_
    intro l' hl h
    refine (h.of_scopes (hs.scopes.imp fun _ hv => hv.mono hl)).of_value ?_
    exact (h.values _ (List.mem_singleton_self _)).orNone
  | .refused ha hp, _, hs => by
    have hact := hp.recorded hm (hm _ _ _ hs.values) (fits_apart hs nofun)
    have hhandler := Recorded.handler hp hs.values hact
    refine .one' (.run (.refused ha hp)) hs.toLies hhandler (fun _ h => by cases h; rfl) ?_
    exact fun l' hl h => h.of_scopes (hs.scopes.imp fun _ hv => hv.mono hl)
  | .imported, _, hs => .leaf (.run .imported) hs.toLies (hs.of_values nofun) nofun

theorem Performs.recorded (hm : m.Honest I) {x : Action σ} {w w' : World σ}
    {r : Except Failure Value} : Performs m x w r w' → ∀ {l : Ledger}, x.Honest I l →
      (w.shows []).Fits I l → Recorded m I l (.act x w) (w'.shows r.toOption.toList)
  | .reply, _, hx, hw => .leaf (.act .reply) hw.toLies (hw.of_value hx) nofun
  | .refuse, _, _, hw => .leaf (.act .refuse) hw.toLies hw nofun
  | .get h, _, hx, hw =>
    .one' (.act (.get h)) hw.toLies (h.recorded hm (hx _ hw.host) hw) (fun _ h => by cases h; rfl)
      fun _ _ hp => hp
  | .put h, _, hx, hw =>
    .one' (.act (.put h)) hw.toLies (h.recorded hm hx.2 ⟨⟨nofun, Scopes.all_empty⟩, hw.size, hx.1⟩)
      (fun _ h => by cases h; rfl) fun _ _ hp => hp
  | .list h, _, hx, hw =>
    .one' (.act (.list h)) hw.toLies
      (.weaken (List.prefix_append ..) (h.recorded hm (hw.size ▸ hx.2)
        ((hw.made (hw.size ▸ Value.fits_list hx.1)).of_values nofun)))
      (fun _ h => by cases h; rfl) fun _ _ hp => hp
  | .object h, _, hx, hw =>
    .one' (.act (.object h)) hw.toLies
      (.weaken (List.prefix_append ..) (h.recorded hm (hw.size ▸ hx.2)
        ((hw.made (hw.size ▸ Value.fits_object hx.1)).of_values nofun)))
      (fun _ h => by cases h; rfl) fun _ _ hp => hp
  | .call hc h, _, hx, hw =>
    .two (.act (.call hc h)) hw.toLies (hc.recorded hm (hw.of_values hx.1)) (.calledBack hc)
      (fun _ hl hp => h.recorded hm (hx.2 _ _ hl (fits_settle hp.values)) (fits_apart hp nofun))
      fun _ _ _ _ hp => hp
  | .evaluate he h, _, hx, hw =>
    .two (.act (.evaluate he h)) hw.toLies (he.recorded hm hw) (.evaluated he)
      (fun _ hl hp => h.recorded hm (hx _ _ hl (fits_settle hp.values)) (fits_apart hp nofun))
      fun _ _ _ _ hp => hp
  | .acquire hf h, _, hx, hw => by
    refine .one' (.act (.acquire hf h)) hw.toLies
      (h.recorded hm (hx _) (hw.of_world rfl rfl)) ?_ fun _ _ hp => hp
    intro c hc
    cases hc with
    | acquire hf' =>
      cases hf.symm.trans hf'
      rfl
    | acquireRefused hc => cases hf.symm.trans hc
  | .acquireRefused hr h, _, hx, hw => by
    refine .one' (.act (.acquireRefused hr h)) hw.toLies (h.recorded hm (hx _) hw) ?_
      fun _ _ hp => hp
    intro c hc
    cases hc with
    | acquire hf => cases hr.symm.trans hf
    | acquireRefused hr' =>
      cases hr.symm.trans hr'
      rfl
  | .release h, _, hx, hw =>
    .one' (.act (.release h)) hw.toLies (h.recorded hm hx (hw.of_world rfl rfl))
      (fun _ h => by cases h; rfl) fun _ _ hp => hp

end

theorem Ended.recorded (hm : m.Honest I) {a : Moment σ} {q : Snapshot σ} (h : Ended m a q)
    (ha : a.Stands I l) : Recorded m I l a q := by
  cases h with
  | expr h => exact h.recorded hm ha.fits
  | order h => exact h.recorded hm ha.fits
  | call h => exact h.recorded hm ha.fits
  | run h => exact h.recorded hm ha.fits
  | handler h =>
    have hact := h.recorded hm (hm _ _ _ ha.fits.values) (fits_apart ha.fits nofun)
    exact .handler h ha.fits.values hact
  | act h => exact h.recorded hm (ha.honest _ _ rfl) ha.fits

/-! ## Runs that go on -/

/-- What has ended before a moment is in the ledger with which the run comes to it. -/
theorem Then.stands (hm : m.Honest I) {a b c : Moment σ} (h : Then m a b c) (ha : a.Stands I l) :
    ∃ l', l <+: l' ∧ Stays m l' b ∧ c.Stands I l' := by
  cases h with
  | call hes =>
    obtain ⟨l', hl, hp, hs⟩ := hes.recorded hm ha.fits
    exact ⟨l', hl, hs, hp, nofun⟩
  | whenTrue ht =>
    obtain ⟨l', hl, hp, hs⟩ := ht.recorded hm ha.fits
    exact ⟨l', hl, hs, hp.of_values nofun, nofun⟩
  | whenFalse ht =>
    obtain ⟨l', hl, hp, hs⟩ := ht.recorded hm ha.fits
    exact ⟨l', hl, hs, hp.of_values nofun, nofun⟩
  | again hb =>
    obtain ⟨l', hl, hp, hs⟩ := hb.recorded hm ha.fits
    exact ⟨l', hl, hs, hp.of_values nofun, nofun⟩
  | tail he =>
    obtain ⟨l', hl, hp, hs⟩ := he.recorded hm ha.fits
    exact ⟨l', hl, hs, hp.of_values nofun, nofun⟩
  | calledBack hc =>
    have hx := ha.honest _ _ rfl
    obtain ⟨l', hl, hp, hs⟩ := hc.recorded hm (ha.fits.of_values hx.1)
    refine ⟨l', hl, hs, fits_apart hp nofun, ?_⟩
    rintro _ _ ⟨⟩
    exact hx.2 l' _ hl (fits_settle hp.values)
  | evaluated he =>
    have hx := ha.honest _ _ rfl
    obtain ⟨l', hl, hp, hs⟩ := he.recorded hm ha.fits
    refine ⟨l', hl, hs, fits_apart hp nofun, ?_⟩
    rintro _ _ ⟨⟩
    exact hx l' _ hl (fits_settle hp.values)

theorem Leads.stands (hm : m.Honest I) {a b : Moment σ} (h : Leads m a b) (ha : a.Stands I l) :
    ∃ l', l <+: l' ∧ b.Stands I l' := by
  have hlater : ∀ {c}, Then m a c b → ∃ l', l <+: l' ∧ b.Stands I l' := by
    intro c hc
    obtain ⟨l', hl, -, hb⟩ := hc.stands hm ha
    exact ⟨l', hl, hb⟩
  have hfits := ha.fits
  have hhonest := ha.honest
  cases h with
  | call hes => exact hlater (.call hes)
  | whenTrue ht => exact hlater (.whenTrue ht)
  | whenFalse ht => exact hlater (.whenFalse ht)
  | again hb => exact hlater (.again hb)
  | tail he => exact hlater (.tail he)
  | calledBack hc => exact hlater (.calledBack hc)
  | evaluated he => exact hlater (.evaluated he)
  | enter hf =>
    exact ⟨l, List.prefix_refl l, hfits.of_world (enter_fresh ..) (enter_host ..), nofun⟩
  | defined hlen => exact ⟨l, List.prefix_refl l, fits_seeded hfits _, nofun⟩
  | native hlen => exact ⟨l, List.prefix_refl l, fits_apart hfits hfits.values, nofun⟩
  | handler =>
    refine ⟨l, List.prefix_refl l, fits_apart hfits nofun, ?_⟩
    rintro _ _ ⟨⟩
    exact hm _ _ l hfits.values
  | get =>
    refine ⟨l, List.prefix_refl l, hfits, ?_⟩
    rintro _ _ ⟨⟩
    exact hhonest _ _ rfl _ hfits.host
  | put =>
    have hx := hhonest _ _ rfl
    refine ⟨l, List.prefix_refl l, ⟨⟨nofun, Scopes.all_empty⟩, hfits.size, hx.1⟩, ?_⟩
    rintro _ _ ⟨⟩
    exact hx.2
  | @makeList vs next w =>
    have hx := hhonest _ _ rfl
    have hmade := hfits.made (v := .list w.fresh vs) (hfits.size ▸ Value.fits_list hx.1)
    refine ⟨_, List.prefix_append .., hmade.of_values nofun, ?_⟩
    rintro _ _ ⟨⟩
    exact hfits.size ▸ hx.2
  | @makeObject fs next w =>
    have hx := hhonest _ _ rfl
    have hmade := hfits.made (v := .object w.fresh fs) (hfits.size ▸ Value.fits_object hx.1)
    refine ⟨_, List.prefix_append .., hmade.of_values nofun, ?_⟩
    rintro _ _ ⟨⟩
    exact hfits.size ▸ hx.2
  | callBack => exact ⟨l, List.prefix_refl l, hfits.of_values (hhonest _ _ rfl).1, nofun⟩
  | acquire hf =>
    refine ⟨l, List.prefix_refl l, hfits.of_world rfl rfl, ?_⟩
    rintro _ _ ⟨⟩
    exact hhonest _ _ rfl _
  | acquireRefused hc =>
    refine ⟨l, List.prefix_refl l, hfits, ?_⟩
    rintro _ _ ⟨⟩
    exact hhonest _ _ rfl _
  | release =>
    have hx := hhonest _ _ rfl
    refine ⟨l, List.prefix_refl l, hfits.of_world rfl rfl, ?_⟩
    rintro _ _ ⟨⟩
    exact hx
  | _ => exact ⟨l, List.prefix_refl l, hfits, nofun⟩

theorem Reaches.stands (hm : m.Honest I) {a b : Moment σ} (h : Reaches m a b)
    (ha : a.Stands I l) : ∃ l', l <+: l' ∧ b.Stands I l' := by
  induction h with
  | refl => exact ⟨l, List.prefix_refl l, ha⟩
  | tail _ hbc ih =>
    obtain ⟨l', hl, hb⟩ := ih
    obtain ⟨l'', hl', hc⟩ := hbc.stands hm hb
    exact ⟨l'', hl.trans hl', hc⟩

theorem shows_of_stands (hm : m.Honest I) {a : Moment σ} (ha : a.Stands I l) :
    ∃ l', l <+: l' ∧ Shows m l' a := by
  by_cases hend : ∃ q, Ended m a q
  · obtain ⟨q, hq⟩ := hend
    obtain ⟨l', hl, -, hs⟩ := hq.recorded hm ha
    exact ⟨l', hl, hs.here⟩
  · exact ⟨l, List.prefix_refl l, ha.fits.toLies, fun p hp => absurd ⟨p, hp⟩ hend⟩

/-- A moment and any other that the run from there comes to are seen in one ledger. -/
theorem Reaches.shows (hm : m.Honest I) {a b : Moment σ} (h : Reaches m a b) (ha : a.Stands I l) :
    ∃ l', l <+: l' ∧ Shows m l' a ∧ Shows m l' b := by
  by_cases hend : ∃ q, Ended m a q
  · obtain ⟨q, hq⟩ := hend
    obtain ⟨l', hl, -, hs⟩ := hq.recorded hm ha
    exact ⟨l', hl, hs.here, hs b h⟩
  · obtain ⟨l', hl, hb⟩ := h.stands hm ha
    obtain ⟨l'', hl', hshows⟩ := shows_of_stands hm hb
    have hgrown := hl.trans hl'
    exact ⟨l'', hgrown, ⟨ha.fits.toLies.mono hgrown, fun p hp => absurd ⟨p, hp⟩ hend⟩, hshows⟩

/-- Any two moments that the run from a third one comes to are seen in one ledger. -/
theorem Reaches.common (hm : m.Honest I) {a b c : Moment σ} (hb : Reaches m a b)
    (hc : Reaches m a c) (ha : a.Stands I l) : ∃ l', l <+: l' ∧ Shows m l' b ∧ Shows m l' c := by
  induction hb using Relation.ReflTransGen.head_induction_on generalizing l with
  | refl => exact hc.shows hm ha
  | @head a a₁ hab hb ih =>
    obtain rfl | ⟨a₂, hac, hc⟩ := Relation.ReflTransGen.cases_head hc
    · obtain ⟨l', hl, hshows, hshows'⟩ :=
        Reaches.shows hm (Relation.ReflTransGen.head hab hb) ha
      exact ⟨l', hl, hshows', hshows⟩
    · obtain rfl | hthen | hthen := hab.linear hac
      · obtain ⟨l', hl, ha'⟩ := hab.stands hm ha
        obtain ⟨l'', hl', hshows⟩ := ih hc ha'
        exact ⟨l'', hl.trans hl', hshows⟩
      -- the part in which one of the moments is has ended before the run came to the other
      · obtain ⟨l', hl, hs, ha'⟩ := hthen.stands hm ha
        obtain ⟨l'', hl', -, hshows⟩ := Reaches.shows hm hc ha'
        exact ⟨l'', hl.trans hl', (hs b hb).mono hl', hshows⟩
      · obtain ⟨l', hl, hs, ha'⟩ := hthen.stands hm ha
        obtain ⟨l'', hl', -, hshows⟩ := Reaches.shows hm hb ha'
        exact ⟨l'', hl.trans hl', hshows, (hs c hc).mono hl'⟩

end Arbor.Machine
