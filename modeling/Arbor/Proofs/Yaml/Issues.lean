import Arbor.Proofs.Yaml.Readings

/-!
No issue gets lost.

A reading that ends without issues met none on the way, and one that fails does not do so with an
empty list of issues (`Faithful`). So of a record that was read without issues every field was read
from the pair that gives it (`record_field`).
-/

set_option autoImplicit false

namespace Arbor.Yaml.Reading

variable {ε σ α β : Type}

/-- The reading loses no issue, and says why it fails. -/
def Faithful (x : Reading ε α) : Prop :=
  ∀ anchored tally,
    match x anchored tally with
    | .ok (_, tally') => tally'.issues = [] → tally.issues = []
    | .error e => e ≠ .issues []

theorem Faithful.pure (a : α) : Faithful (pure a : Reading ε α) := fun _ _ => id

theorem Faithful.malformed : Faithful (malformed : Reading ε α) := fun _ _ => nofun

theorem Faithful.throw {e : Fault ε} (h : e ≠ .issues []) : Faithful (throw e : Reading ε α) :=
  fun _ _ => h

theorem Faithful.bind {x : Reading ε α} {f : α → Reading ε β} (hx : Faithful x)
    (hf : ∀ a, Faithful (f a)) : Faithful (x >>= f) := by
  intro anchored tally
  have hfirst := hx anchored tally
  change match x anchored tally >>= fun r => f r.1 anchored r.2 with
    | .ok (_, tally') => tally'.issues = [] → tally.issues = []
    | .error e => e ≠ .issues []
  cases hr : x anchored tally with
  | error e =>
    rw [hr] at hfirst
    exact hfirst
  | ok r =>
    obtain ⟨a, mid⟩ := r
    rw [hr] at hfirst
    have hsecond := hf a anchored mid
    simp only [Bind.bind, Except.bind]
    revert hsecond
    cases f a anchored mid with
    | error e => exact id
    | ok r' => exact fun hsecond h => hfirst (hsecond h)

theorem Faithful.read_bind {f : Array (Option Node) → Reading ε β} (hf : ∀ a, Faithful (f a)) :
    Faithful (read >>= f) := fun anchored tally => hf anchored anchored tally

theorem Faithful.get_bind {f : Tally → Reading ε β} (hf : ∀ t, Faithful (f t)) :
    Faithful (get >>= f) := fun anchored tally => hf tally anchored tally

theorem Faithful.modify {f : Tally → Tally} (hf : ∀ t, (f t).issues = t.issues) :
    Faithful (modify f : Reading ε Unit) := fun _ tally h => (hf tally).symm.trans h

theorem Faithful.report (i : Issue) : Faithful (report i : Reading ε Unit) :=
  fun _ _ h => absurd h (List.cons_ne_nil _ _)

theorem Faithful.forM {l : List α} {f : α → Reading ε Unit} (hf : ∀ a, Faithful (f a)) :
    Faithful (l.forM f) := by
  induction l with
  | nil => exact .pure ()
  | cons a l ih => exact (hf a).bind fun _ => ih

theorem Faithful.mapM {l : List α} {f : α → Reading ε β} (hf : ∀ a, Faithful (f a)) :
    Faithful (l.mapM f) := by
  induction l with
  | nil => exact .pure []
  | cons a l ih =>
    rw [List.mapM_cons]
    exact (hf a).bind fun b => ih.bind fun bs => .pure _

theorem Faithful.foldlM {l : List α} {f : β → α → Reading ε β} (hf : ∀ b a, Faithful (f b a))
    (b : β) : Faithful (l.foldlM f b) := by
  induction l generalizing b with
  | nil => exact .pure b
  | cons a l ih =>
    rw [List.foldlM_cons]
    exact (hf b a).bind ih

/-! ## The readers -/

theorem visit_faithful (trail : Trail) : Faithful (visit trail : Reading ε Unit) := by
  refine Faithful.bind (.modify fun tally => ?_) fun _ => .get_bind fun tally => ?_
  · rfl
  split
  next => exact .malformed
  next => exact .pure ()

theorem follow_faithful (trail : Trail) (n : Node) :
    Faithful (follow trail n : Reading ε (Node × Trail)) := by
  refine (visit_faithful trail).bind fun _ => ?_
  cases n with
  | scalar | sequence | mapping => exact .pure _
  | reference name id serial line =>
    simp only
    split
    next => exact .malformed
    next =>
      refine .read_bind fun anchored => ?_
      split
      next => exact (visit_faithful _).bind fun _ => .pure _
      next => exact .malformed

theorem scalar_faithful (tag written : String) :
    Faithful (scalar tag written : Reading ε Scalar) := by
  unfold scalar
  split
  next => exact .pure _
  next =>
    split
    next => exact .pure _
    next => exact .malformed

theorem distinctKeys_faithful (pairs : List (Node × Node)) :
    Faithful (distinctKeys pairs : Reading ε Bool) := by
  induction pairs with
  | nil => exact .pure true
  | cons p rest ih =>
    exact Faithful.bind (.forM fun q => .report _) fun _ => ih.bind fun others => .pure _

theorem misfit_faithful (n : Node) (target : String) :
    Faithful (misfit n target : Reading ε Unit) := .report _

theorem text_faithful (trail : Trail) (n : Node) :
    Faithful (text trail n : Reading ε (Option String)) := by
  refine (follow_faithful trail n).bind fun found => ?_
  obtain ⟨n, -⟩ := found
  cases n with
  | scalar tag written line =>
    refine (scalar_faithful tag written).bind fun value => ?_
    cases value <;> exact .pure _
  | mapping tag pairs line =>
    refine (distinctKeys_faithful pairs).bind fun distinct => ?_
    simp only
    split
    next => exact (misfit_faithful _ _).bind fun _ => .pure _
    next => exact .pure _
  | sequence tag items line => exact (misfit_faithful _ _).bind fun _ => .pure _
  | reference name id serial line => exact (misfit_faithful _ _).bind fun _ => .pure _

theorem fieldName_faithful (trail : Trail) (n : Node) :
    Faithful (fieldName trail n : Reading ε (Option Scalar)) :=
  (text_faithful trail n).bind fun _ => .pure _

theorem scalarKey_faithful (trail : Trail) (n : Node) :
    Faithful (scalarKey trail n : Reading ε (Option Scalar)) := by
  refine (follow_faithful trail n).bind fun found => ?_
  split
  next => exact (scalar_faithful _ _).bind fun _ => .pure _
  next => exact .malformed

/-! ## Mappings and records -/

/-- Keys and pairs are read faithfully. -/
structure Plan.Faithful (plan : Plan ε σ) : Prop where
  key : ∀ trail k, Reading.Faithful (plan.key trail k)
  loose : ∀ trail k, Reading.Faithful (plan.loose trail k)
  put : ∀ trail key k v acc, Reading.Faithful (plan.put trail key k v acc)

variable {plan : Plan ε σ}

theorem ownEntries_faithful (hplan : plan.Faithful) (trail : Trail) (pairs : List (Node × Node))
    (met : Met) (acc : σ) : Faithful (ownEntries plan trail pairs met acc) := by
  induction pairs generalizing met acc with
  | nil => exact .pure _
  | cons p rest ih =>
    obtain ⟨k, v⟩ := p
    unfold ownEntries
    split
    next => exact ih met acc
    next =>
      refine (hplan.key trail k).bind fun key => ?_
      cases key with
      | none => exact ih met acc
      | some key =>
        have hput := hplan.put trail key k v acc
        cases met with
        | none => exact hput.bind fun acc' => ih none acc'
        | some keys =>
          simp only
          split
          next => exact ih _ acc
          next => exact hput.bind fun acc' => ih _ acc'

theorem mergeLast_faithful (hplan : plan.Faithful) {inside : Inside ε σ}
    (hinside : ∀ trail inner state, Faithful (inside trail inner state)) (trail : Trail)
    (pairs : List (Node × Node)) (state : σ × Met) :
    Faithful (mergeLast plan inside trail pairs state) := by
  have hkeys : Faithful (metKeys plan trail pairs state.2) := by
    unfold metKeys
    split
    next => exact .pure _
    next => exact Faithful.bind (.mapM fun p => hplan.loose trail p.1) fun _ => .pure _
  have hone : ∀ anchored n state, Faithful (mergeOne inside trail anchored n state) := by
    intro anchored n state
    unfold mergeOne
    split
    next =>
      refine (follow_faithful trail n).bind fun found => ?_
      split
      next =>
        refine (distinctKeys_faithful _).bind fun distinct => ?_
        split
        next => exact hinside _ _ state
        next => exact .pure _
      next => exact .malformed
    next => exact .malformed
  unfold mergeLast
  split
  next => exact .pure _
  next => exact hkeys.bind fun _ => .read_bind fun anchored => .foldlM (fun _ n => hone anchored n _) _

theorem entries_faithful (hplan : plan.Faithful) (fuel : Nat) (trail : Trail)
    (pairs : List (Node × Node)) (met : Met) (acc : σ) :
    Faithful (entries plan fuel trail pairs met acc) := by
  induction fuel generalizing trail pairs met acc with
  | zero => exact .malformed
  | succ fuel ih =>
    rw [entries_succ]
    refine (ownEntries_faithful hplan trail pairs met acc).bind fun state => ?_
    exact mergeLast_faithful hplan (fun trail inner state => ih trail inner state.2 state.1) trail
      pairs state

/-- The fields are read faithfully. -/
def Shape.Faithful (shape : Shape ε σ) : Prop :=
  ∀ field ∈ shape.fields, ∀ trail n acc, Reading.Faithful (field.put trail n acc)

theorem textField_faithful (name : String) (put : String → σ → σ) (trail : Trail) (n : Node)
    (acc : σ) : Faithful ((textField name put : Field ε σ).put trail n acc) := by
  refine (text_faithful trail n).bind fun s => ?_
  cases s <;> exact .pure _

theorem fieldPlan_faithful {shape : Shape ε σ} (h : shape.Faithful) :
    (fieldPlan shape).Faithful where
  key := fieldName_faithful
  loose := scalarKey_faithful
  put trail key k v state := by
    unfold fieldPlan
    simp only
    split
    next =>
      split
      next field hfield =>
        split
        next => exact (Faithful.report _).bind fun _ => .pure _
        next =>
          exact (h field (List.mem_of_find?_eq_some hfield) trail v state.1).bind fun _ => .pure _
      next =>
        split
        next => exact (Faithful.report _).bind fun _ => .pure _
        next => exact .pure _
    next => exact .pure _

theorem recordAt_faithful {shape : Shape ε σ} (h : shape.Faithful) (fuel : Nat) (init : σ)
    (trail : Trail) (n : Node) : Faithful (recordAt fuel shape init trail n) := by
  cases n with
  | scalar tag written line =>
    refine (scalar_faithful _ _).bind fun value => ?_
    simp only
    split
    next => exact (misfit_faithful _ _).bind fun _ => .pure _
    next => exact .pure _
  | mapping tag pairs line =>
    refine (distinctKeys_faithful _).bind fun distinct => ?_
    split
    next => exact (entries_faithful (fieldPlan_faithful h) fuel trail pairs none _).bind fun _ => .pure _
    next => exact .pure _
  | sequence tag items line => exact (misfit_faithful _ _).bind fun _ => .pure _
  | reference name id serial line => exact (misfit_faithful _ _).bind fun _ => .pure _

theorem record_faithful {shape : Shape ε σ} (h : shape.Faithful) (fuel : Nat) (init : σ)
    (trail : Trail) (n : Node) : Faithful (record fuel shape init trail n) :=
  (follow_faithful trail n).bind fun found => recordAt_faithful h fuel init found.2 found.1

theorem run_ne_issues {x : Reading ε α} (hx : Faithful x) (anchored : Array (Option Node)) :
    x.run anchored ≠ .error (.issues []) := by
  have hrun := hx anchored Tally.start
  unfold Reading.run
  change (x anchored Tally.start >>= fun r =>
    if r.2.issues.isEmpty then pure r.1 else throw (.issues r.2.issues.reverse)) ≠ _
  cases hr : x anchored Tally.start with
  | error e =>
    rw [hr] at hrun
    rintro ⟨⟩
    exact hrun rfl
  | ok r =>
    simp only [bind, Except.bind]
    split
    next => exact nofun
    next hsome =>
      intro h
      have hnone : r.2.issues.reverse = [] := Fault.issues.inj (Except.error.inj h)
      simp [List.reverse_eq_nil_iff.1 hnone] at hsome

/-! ## Readings without issues -/

/-- The reading may give `a` without any issue at the end. -/
def Accepts (anchored : Array (Option Node)) (x : Reading ε α) (a : α) : Prop :=
  ∃ tally tally', x anchored tally = .ok (a, tally') ∧ tally'.issues = []

variable {anchored : Array (Option Node)}

theorem Accepts.gives {x : Reading ε α} {a : α} (h : Accepts anchored x a) :
    Gives anchored x a := by
  obtain ⟨tally, tally', h, -⟩ := h
  exact ⟨tally, tally', h⟩

theorem accepts_of_run {x : Reading ε α} {a : α} (h : x.run anchored = .ok a) :
    Accepts anchored x a := by
  obtain ⟨tally, h, hnone⟩ := run_eq_ok_iff.1 h
  exact ⟨_, tally, h, hnone⟩

theorem Accepts.of_pure {a b : α} (h : Accepts anchored (pure a : Reading ε α) b) : a = b := by
  obtain ⟨tally, tally', h, -⟩ := h
  exact (pure_eq_ok_iff.1 h).1

/-- What follows loses no issue, so the first step had none. -/
theorem Accepts.of_bind {x : Reading ε α} {f : α → Reading ε β} {b : β}
    (hf : ∀ a, Faithful (f a)) (h : Accepts anchored (x >>= f) b) :
    ∃ a, Accepts anchored x a ∧ Accepts anchored (f a) b := by
  obtain ⟨tally, tally', h, hnone⟩ := h
  obtain ⟨a, mid, hx, h⟩ := bind_eq_ok_iff.1 h
  have hlast := hf a anchored mid
  rw [h] at hlast
  exact ⟨a, ⟨tally, mid, hx, hlast hnone⟩, ⟨mid, tally', h, hnone⟩⟩

theorem not_accepts_report {i : Issue} {u : Unit} :
    ¬Accepts anchored (report i : Reading ε Unit) u := by
  rintro ⟨tally, tally', h, hnone⟩
  cases h
  exact List.cons_ne_nil _ _ hnone

theorem Accepts.distinctKeys {pairs : List (Node × Node)} {distinct : Bool}
    (h : Accepts anchored (distinctKeys pairs : Reading ε Bool) distinct) : distinct = true := by
  induction pairs generalizing distinct with
  | nil => exact h.of_pure.symm
  | cons p rest ih =>
    obtain ⟨_, hreports, h⟩ := h.of_bind fun _ =>
      (distinctKeys_faithful rest).bind fun others => .pure _
    obtain ⟨others, hothers, h⟩ := h.of_bind fun others => .pure _
    obtain rfl := h.of_pure
    rw [ih hothers, Bool.and_true, List.isEmpty_iff]
    generalize rest.filter _ = again at hreports
    cases again with
    | nil => rfl
    | cons q again =>
      obtain ⟨_, hreport, -⟩ := hreports.of_bind fun _ => .forM fun q => .report _
      exact absurd hreport not_accepts_report

theorem fieldName_of_scalar {trail : Trail} {name : String} {line : Nat} {r : Option Scalar}
    (h : Gives anchored (fieldName trail (.scalar Tag.str name line) : Reading ε _) r) :
    r = some (.string name) := by
  obtain ⟨tally, tally', h⟩ := h
  obtain ⟨s, mid, htext, hr⟩ := bind_eq_ok_iff.1 h
  obtain ⟨⟨n, trail'⟩, mid', hfollow, hs⟩ := bind_eq_ok_iff.1 htext
  have hn := target?_of_follow ⟨tally, mid', hfollow⟩
  obtain rfl : Node.scalar Tag.str name line = n := Option.some.inj hn
  obtain ⟨value, mid'', hvalue, hs⟩ := bind_eq_ok_iff.1 hs
  obtain ⟨rfl, -⟩ := pure_eq_ok_iff.1 hvalue
  obtain ⟨rfl, -⟩ := pure_eq_ok_iff.1 hs
  exact (pure_eq_ok_iff.1 hr).1.symm

theorem ownEntries_cons (plan : Plan ε σ) (trail : Trail) {k : Node} (v : Node)
    (rest : List (Node × Node)) (acc : σ) (hmerge : k.isMerge = false) :
    ownEntries plan trail ((k, v) :: rest) none acc = plan.key trail k >>= fun key =>
      key.elim (ownEntries plan trail rest none acc) fun key =>
        plan.put trail key k v acc >>= ownEntries plan trail rest none := by
  rw [ownEntries.eq_2, if_neg (by simp [hmerge])]
  refine bind_congr fun key => ?_
  cases key <;> rfl

/-- A pair that was taken in without issues leaves its mark on all that was read. -/
theorem ownEntries_put {plan : Plan ε σ} (hplan : plan.Faithful) {post : σ → Prop} (trail : Trail)
    {pairs : List (Node × Node)} (hkeeps : plan.KeepsAt anchored pairs post) {k v : Node}
    (hp : (k, v) ∈ pairs) (hmerge : k.isMerge = false)
    (hput : ∀ r, Gives anchored (plan.key trail k) r → ∃ key, r = some key ∧
      ∀ acc a, Accepts anchored (plan.put trail key k v acc) a → post a)
    {acc : σ} {r : σ × Met} (h : Accepts anchored (ownEntries plan trail pairs none acc) r) :
    post r.1 := by
  induction pairs generalizing acc with
  | nil => cases hp
  | cons p rest ih =>
    obtain ⟨k', v'⟩ := p
    have hrest : plan.KeepsAt anchored rest post := hkeeps.imp fun p => .of_cons
    by_cases hmerge' : k'.isMerge
    · rw [ownEntries.eq_2, if_pos hmerge'] at h
      obtain heq | hp := List.mem_cons.1 hp
      · cases heq
        cases hmerge.symm.trans hmerge'
      · exact ih hrest hp h
    rw [ownEntries_cons plan trail v' rest acc (by simpa using hmerge')] at h
    have hfaithful := ownEntries_faithful hplan trail rest none
    obtain ⟨key, hkey, h⟩ := h.of_bind fun key => by
      cases key with
      | none => exact hfaithful acc
      | some key => exact (hplan.put trail key k' v' acc).bind hfaithful
    obtain heq | hp := List.mem_cons.1 hp
    · cases heq
      obtain ⟨key, rfl, hput⟩ := hput key hkey.gives
      obtain ⟨acc', hacc', h⟩ := h.of_bind hfaithful
      exact ownEntries_keeps trail hrest none (hput acc acc' hacc') r h.gives
    · cases key with
      | none => exact ih hrest hp h
      | some key =>
        obtain ⟨acc', -, h⟩ := h.of_bind hfaithful
        exact ih hrest hp h

/-- The field of that name was taken in, with that effect on the record. -/
def Took (post : σ → Prop) (name : String) (state : σ × List String) : Prop :=
  post state.1 ∧ name ∈ state.2

/-- After a field was taken in, fields of other names alone matter. -/
theorem fieldPlan_seen {shape : Shape ε σ} {post : σ → Prop} {name : String}
    (pairs : List (Node × Node))
    (hothers : ∀ other ∈ shape.fields, other.name ≠ name → ∀ trail n acc, post acc →
      YieldsAt anchored (other.put trail n acc) post) :
    (fieldPlan shape).KeepsAt anchored pairs (Took post name) := by
  rintro trail key k v ⟨acc, seen⟩ - - ⟨hacc, hseen⟩
  unfold fieldPlan
  simp only
  split
  next other =>
    split
    next field hfield =>
      split
      next => exact .bind fun _ _ => .pure ⟨hacc, hseen⟩
      next hnew =>
        have hname : field.name = other := by simpa using List.find?_some hfield
        have hne : field.name ≠ name := by
          rintro rfl
          exact hnew (by simpa [hname] using hseen)
        refine .bind fun acc' hacc' => .pure ⟨?_, List.mem_cons_of_mem _ hseen⟩
        exact hothers field (List.mem_of_find?_eq_some hfield) hne trail v acc hacc acc' hacc'
    next =>
      split
      next => exact .bind fun _ _ => .pure ⟨hacc, hseen⟩
      next => exact .pure ⟨hacc, hseen⟩
  next => exact .pure ⟨hacc, hseen⟩

/-- A field that was taken in without issues was new. -/
theorem fieldPlan_put {shape : Shape ε σ} {post : σ → Prop}
    {field : Field ε σ} {name : String} (hfield : shape.fields.find? (·.name == name) = some field)
    {trail : Trail} {k v : Node} {state state' : σ × List String}
    (hput : ∀ a, Accepts anchored (field.put trail v state.1) a → post a)
    (h : Accepts anchored ((fieldPlan shape).put trail (.string name) k v state) state') :
    Took post name state' := by
  unfold fieldPlan at h
  simp only [hfield] at h
  split at h
  next =>
    obtain ⟨_, hreport, -⟩ := h.of_bind fun _ => .pure _
    exact absurd hreport not_accepts_report
  next =>
    obtain ⟨acc, hacc, h⟩ := h.of_bind fun _ => .pure _
    obtain rfl := h.of_pure
    exact ⟨hput acc hacc, List.mem_cons_self⟩

/-- A field of a record without issues comes from the pair that gives it, whatever is merged into the
record. -/
theorem record_field {shape : Shape ε σ} (hshape : shape.Faithful) {post : σ → Prop} (fuel : Nat)
    {init : σ} {trail : Trail} {n : Node} {tag : String} {pairs : List (Node × Node)} {line : Nat}
    (hn : n.target? anchored = some (.mapping tag pairs line)) {field : Field ε σ} {name : String}
    (hfield : shape.fields.find? (·.name == name) = some field) {v : Node} {kline : Nat}
    (hp : (.scalar Tag.str name kline, v) ∈ pairs)
    (hput : ∀ trail acc a, Accepts anchored (field.put trail v acc) a → post a)
    (hothers : ∀ other ∈ shape.fields, other.name ≠ name → ∀ trail n acc, post acc →
      YieldsAt anchored (other.put trail n acc) post)
    {r : Option σ} (h : Accepts anchored (record fuel shape init trail n) r) :
    ∃ a, r = some a ∧ post a := by
  have hplan := fieldPlan_faithful hshape
  have hmerge : (Node.scalar Tag.str name kline).isMerge = false := by
    simp [Node.isMerge, Tag.str, Tag.merge]
  have hseen : ∀ pairs, (fieldPlan shape).KeepsAt anchored pairs (Took post name) := fun pairs =>
    fieldPlan_seen pairs hothers
  obtain ⟨⟨target, trail⟩, hfollow, h⟩ := h.of_bind fun (found : Node × Trail) =>
    recordAt_faithful hshape fuel init found.2 found.1
  obtain rfl : Node.mapping tag pairs line = target :=
    Option.some.inj (hn.symm.trans (target?_of_follow hfollow.gives))
  obtain ⟨distinct, hdistinct, h⟩ := h.of_bind fun distinct => by
    split
    next => exact (entries_faithful hplan fuel trail pairs none _).bind fun _ => .pure _
    next => exact .pure _
  rw [if_pos hdistinct.distinctKeys] at h
  obtain ⟨state, hstate, h⟩ := h.of_bind fun _ => .pure _
  obtain rfl := h.of_pure
  refine ⟨_, rfl, ?_⟩
  cases fuel with
  | zero => exact absurd hstate.gives not_gives_malformed
  | succ fuel =>
    rw [entries_succ] at hstate
    obtain ⟨own, hown, hmerged⟩ := hstate.of_bind fun own =>
      mergeLast_faithful hplan (fun trail inner state =>
        entries_faithful hplan fuel trail inner state.2 state.1) trail pairs own
    have hown := ownEntries_put hplan trail (hseen pairs) hp hmerge (fun r hr =>
      ⟨.string name, fieldName_of_scalar hr, fun state state' hstate' =>
        fieldPlan_put hfield (hput trail state.1) hstate'⟩) hown
    have hkept : Took post name state.1 := mergeLast_keeps trail (fun trail inner state _ hstate =>
      entries_keeps fuel trail (hseen inner) state.2 hstate) hown state hmerged.gives
    exact hkept.1

end Arbor.Yaml.Reading
