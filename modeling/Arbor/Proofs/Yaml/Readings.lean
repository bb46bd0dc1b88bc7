import Arbor.Yaml.Reading

/-!
What readings keep.

A property of what was read so far that every field or pair keeps holds of the whole record or
mapping, with everything merged into it. The pairs that count are those the mapping offers: its own
and those of what it merges (`Offers`).
-/

set_option autoImplicit false

namespace Arbor.Yaml

/-- What is merged where a node is the value of a merge: its items, or itself. -/
def Node.parts : Node → List Node
  | .sequence _ items _ => items
  | n => [n]

/-- The pair is one of the given pairs or of a mapping they merge. -/
inductive Offers (anchored : Array (Option Node)) : List (Node × Node) → Node × Node → Prop
  | own {pairs : List (Node × Node)} {p : Node × Node} (hp : p ∈ pairs)
      (hmerge : p.1.isMerge = false) : Offers anchored pairs p
  | merged {pairs inner : List (Node × Node)} {k m n : Node} {tag : String} {line : Nat}
      {p : Node × Node} (hm : (k, m) ∈ pairs) (hmerge : k.isMerge = true) (hn : n ∈ m.parts)
      (htarget : n.target? anchored = some (.mapping tag inner line))
      (hp : Offers anchored inner p) : Offers anchored pairs p

theorem Offers.of_cons {anchored : Array (Option Node)} {rest : List (Node × Node)}
    {q p : Node × Node} (h : Offers anchored rest p) : Offers anchored (q :: rest) p := by
  cases h with
  | own hp hmerge => exact .own (List.mem_cons_of_mem _ hp) hmerge
  | merged hm hmerge hn htarget hp => exact .merged (List.mem_cons_of_mem _ hm) hmerge hn htarget hp

namespace Reading

variable {ε σ α β : Type} {anchored : Array (Option Node)}

/-! ## What a reading gives -/

/-- The reading may give `a`, whatever was seen before. -/
def Gives (anchored : Array (Option Node)) (x : Reading ε α) (a : α) : Prop :=
  ∃ tally tally', x anchored tally = .ok (a, tally')

theorem bind_eq_ok_iff {x : Reading ε α} {f : α → Reading ε β} {tally tally' : Tally} {b : β} :
    (x >>= f) anchored tally = .ok (b, tally') ↔
      ∃ a mid, x anchored tally = .ok (a, mid) ∧ f a anchored mid = .ok (b, tally') := by
  change (x anchored tally >>= fun r => f r.1 anchored r.2) = _ ↔ _
  cases x anchored tally with
  | error e => simp [bind, Except.bind]
  | ok r =>
    obtain ⟨a, mid⟩ := r
    constructor
    · exact fun h => ⟨a, mid, rfl, h⟩
    · rintro ⟨a', mid', hx, h⟩
      cases hx
      exact h

theorem pure_eq_ok_iff {a b : α} {tally tally' : Tally} :
    (pure a : Reading ε α) anchored tally = .ok (b, tally') ↔ a = b ∧ tally = tally' := by
  change Except.ok (a, tally) = .ok (b, tally') ↔ _
  simp

theorem not_gives_malformed {a : α} : ¬Gives anchored (malformed : Reading ε α) a := by
  rintro ⟨tally, tally', h⟩
  cases h

/-- Following an alias leads to what it refers to. -/
theorem target?_of_follow {trail : Trail} {n : Node} {r : Node × Trail}
    (h : Gives anchored (follow trail n : Reading ε (Node × Trail)) r) :
    n.target? anchored = some r.1 := by
  obtain ⟨tally, tally', h⟩ := h
  obtain ⟨-, mid, -, h⟩ := bind_eq_ok_iff.1 h
  cases n with
  | scalar | sequence | mapping =>
    obtain ⟨rfl, -⟩ := pure_eq_ok_iff.1 h
    rfl
  | reference name id serial line =>
    simp only at h
    split at h
    next => exact absurd ⟨mid, tally', h⟩ not_gives_malformed
    next =>
      obtain ⟨_, _, hread, h⟩ := bind_eq_ok_iff.1 h
      cases hread
      cases htarget : anchored.getD id none with
      | none =>
        rw [htarget] at h
        exact absurd ⟨mid, tally', h⟩ not_gives_malformed
      | some target =>
        rw [htarget] at h
        obtain ⟨-, mid', -, h⟩ := bind_eq_ok_iff.1 h
        obtain ⟨rfl, -⟩ := pure_eq_ok_iff.1 h
        exact htarget

/-! ## Properties of what is given -/

/-- With that table of anchored nodes, whatever the reading gives has the property. -/
def YieldsAt (anchored : Array (Option Node)) (x : Reading ε α) (post : α → Prop) : Prop :=
  ∀ a, Gives anchored x a → post a

theorem YieldsAt.pure {post : α → Prop} {a : α} (h : post a) :
    YieldsAt anchored (pure a : Reading ε α) post := by
  rintro b ⟨tally, tally', hx⟩
  obtain ⟨rfl, -⟩ := pure_eq_ok_iff.1 hx
  exact h

theorem YieldsAt.malformed {post : α → Prop} :
    YieldsAt anchored (malformed : Reading ε α) post := fun _ h => absurd h not_gives_malformed

theorem YieldsAt.throw {post : α → Prop} (e : Fault ε) :
    YieldsAt anchored (throw e : Reading ε α) post := by
  rintro b ⟨tally, tally', hx⟩
  cases hx

theorem YieldsAt.bind {x : Reading ε α} {f : α → Reading ε β} {post : β → Prop}
    (h : ∀ a, Gives anchored x a → YieldsAt anchored (f a) post) :
    YieldsAt anchored (x >>= f) post := by
  rintro b ⟨tally, tally', hx⟩
  obtain ⟨a, mid, hx, hf⟩ := bind_eq_ok_iff.1 hx
  exact h a ⟨tally, mid, hx⟩ b ⟨mid, tally', hf⟩

theorem YieldsAt.read_bind {f : Array (Option Node) → Reading ε β} {post : β → Prop}
    (h : YieldsAt anchored (f anchored) post) : YieldsAt anchored (read >>= f) post := by
  rintro b ⟨tally, tally', hx⟩
  exact h b ⟨tally, tally', hx⟩

theorem YieldsAt.foldlM {l : List α} {f : β → α → Reading ε β} {post : β → Prop}
    (hf : ∀ a ∈ l, ∀ b, post b → YieldsAt anchored (f b a) post) {b : β} (hb : post b) :
    YieldsAt anchored (l.foldlM f b) post := by
  induction l generalizing b with
  | nil => exact .pure hb
  | cons a l ih =>
    obtain ⟨ha, hl⟩ := List.forall_mem_cons.1 hf
    rw [List.foldlM_cons]
    exact .bind fun b' hb' => ih hl (ha b hb b' hb')

/-- Whatever the reading gives has the property. -/
def Yields (x : Reading ε α) (post : α → Prop) : Prop :=
  ∀ anchored tally a tally', x anchored tally = .ok (a, tally') → post a

theorem yields_iff {x : Reading ε α} {post : α → Prop} :
    Yields x post ↔ ∀ anchored, YieldsAt anchored x post := by
  constructor
  · rintro h anchored a ⟨tally, tally', hx⟩
    exact h anchored tally a tally' hx
  · intro h anchored tally a tally' hx
    exact h anchored a ⟨tally, tally', hx⟩

theorem Yields.any (x : Reading ε α) : Yields x fun _ => True := fun _ _ _ _ _ => trivial

theorem Yields.pure {post : α → Prop} {a : α} (h : post a) :
    Yields (pure a : Reading ε α) post := yields_iff.2 fun _ => .pure h

theorem Yields.bind {x : Reading ε α} {f : α → Reading ε β} {mid : α → Prop} {post : β → Prop}
    (hx : Yields x mid) (hf : ∀ a, mid a → Yields (f a) post) : Yields (x >>= f) post :=
  yields_iff.2 fun _ => .bind fun a ha =>
    yields_iff.1 (hf a (yields_iff.1 hx _ a ha)) _

theorem Yields.andThen {x : Reading ε α} {f : α → Reading ε β} {post : β → Prop}
    (hf : ∀ a, Yields (f a) post) : Yields (x >>= f) post :=
  (Yields.any x).bind fun a _ => hf a

/-! ## Mappings -/

/-- Of the pairs that are offered, all are taken in without losing the property. -/
def Plan.KeepsAt (anchored : Array (Option Node)) (plan : Plan ε σ) (pairs : List (Node × Node))
    (post : σ → Prop) : Prop :=
  ∀ trail key k v acc, Offers anchored pairs (k, v) →
    (∃ trail, Gives anchored (plan.key trail k) (some key)) → post acc →
      YieldsAt anchored (plan.put trail key k v acc) post

theorem Plan.KeepsAt.imp {plan : Plan ε σ} {pairs inner : List (Node × Node)} {post : σ → Prop}
    (h : plan.KeepsAt anchored pairs post)
    (hinner : ∀ p, Offers anchored inner p → Offers anchored pairs p) :
    plan.KeepsAt anchored inner post :=
  fun trail key k v acc hp => h trail key k v acc (hinner _ hp)

theorem ownEntries_keeps {plan : Plan ε σ} {post : σ → Prop} (trail : Trail)
    {pairs : List (Node × Node)} (hplan : plan.KeepsAt anchored pairs post) (met : Met) {acc : σ}
    (hacc : post acc) :
    YieldsAt anchored (ownEntries plan trail pairs met acc) fun r => post r.1 := by
  induction pairs generalizing met acc with
  | nil => exact .pure hacc
  | cons p rest ih =>
    obtain ⟨k, v⟩ := p
    have hrest : plan.KeepsAt anchored rest post := hplan.imp fun p => .of_cons
    unfold ownEntries
    split
    next => exact ih hrest met hacc
    next hmerge =>
      have hown : Offers anchored ((k, v) :: rest) (k, v) :=
        .own List.mem_cons_self (by simpa using hmerge)
      refine .bind fun key hkey => ?_
      cases key with
      | none => exact ih hrest met hacc
      | some key =>
        have hput := hplan trail key k v acc hown ⟨trail, hkey⟩ hacc
        cases met with
        | none => exact .bind fun acc' hacc' => ih hrest none (hput acc' hacc')
        | some keys =>
          simp only
          split
          next => exact ih hrest _ hacc
          next => exact .bind fun acc' hacc' => ih hrest _ (hput acc' hacc')

/-! ## What is merged -/

/-- How the pairs of a mapping inside another one are taken in. -/
abbrev Inside (ε σ : Type) := Trail → List (Node × Node) → σ × Met → Reading ε (σ × Met)

/-- Takes in one mapping that is merged. -/
def mergeOne (inside : Inside ε σ) (trail : Trail) (anchored : Array (Option Node)) (n : Node)
    (state : σ × Met) : Reading ε (σ × Met) := do
  match n.target? anchored with
  | some (.mapping ..) =>
    match ← follow trail n with
    | (.mapping _ inner _, trail) =>
      if ← distinctKeys inner then inside trail inner state else return state
    | _ => malformed
  | _ => malformed

/-- The keys a mapping has before anything is merged into it. -/
def metKeys (plan : Plan ε σ) (trail : Trail) (pairs : List (Node × Node)) :
    Met → Reading ε (List Scalar)
  | some keys => pure keys
  | none => do return (← pairs.mapM fun p => plan.loose trail p.1).filterMap id

/-- Takes in what a mapping merges. -/
def mergeLast (plan : Plan ε σ) (inside : Inside ε σ) (trail : Trail) (pairs : List (Node × Node))
    (state : σ × Met) : Reading ε (σ × Met) :=
  match (pairs.filter (·.1.isMerge)).getLast? with
  | none => return state
  | some (_, merged) => do
    let keys ← metKeys plan trail pairs state.2
    let anchored ← read
    merged.parts.foldlM (fun state n => mergeOne inside trail anchored n state) (state.1, some keys)

theorem entries_succ (plan : Plan ε σ) (fuel : Nat) (trail : Trail) (pairs : List (Node × Node))
    (met : Met) (acc : σ) : entries plan (fuel + 1) trail pairs met acc =
      ownEntries plan trail pairs met acc >>=
        mergeLast plan (fun trail inner state => entries plan fuel trail inner state.2 state.1) trail
          pairs := by
  rw [entries]
  refine bind_congr fun state => ?_
  obtain ⟨acc, met⟩ := state
  unfold mergeLast
  simp only
  cases (pairs.filter (·.1.isMerge)).getLast? with
  | none => rfl
  | some p =>
    obtain ⟨k, merged⟩ := p
    cases met <;> cases merged <;>
      simp only [metKeys, bind_assoc, Node.parts, List.foldlM_cons, List.foldlM_nil, bind_pure] <;>
      rfl

/-- Everything in what is merged is offered by the mapping. -/
theorem mergeLast_keeps {plan : Plan ε σ} {inside : Inside ε σ} {post : σ → Prop} (trail : Trail)
    {pairs : List (Node × Node)}
    (hinside : ∀ trail inner state, (∀ p, Offers anchored inner p → Offers anchored pairs p) →
      post state.1 → YieldsAt anchored (inside trail inner state) fun r => post r.1)
    {state : σ × Met} (hstate : post state.1) :
    YieldsAt anchored (mergeLast plan inside trail pairs state) fun r => post r.1 := by
  unfold mergeLast
  split
  next => exact .pure hstate
  next k merged hlast =>
    obtain ⟨hm, hmerge⟩ : (k, merged) ∈ pairs ∧ k.isMerge = true :=
      List.mem_filter.1 (List.mem_of_getLast? hlast)
    refine .bind fun keys _ => .read_bind (.foldlM (fun n hn state hstate => ?_) hstate)
    unfold mergeOne
    split
    next =>
      refine .bind fun found hfound => ?_
      split
      next tag inner line trail' =>
        refine .bind fun distinct _ => ?_
        split
        next =>
          exact hinside trail' inner state
            (fun p => .merged hm hmerge hn (target?_of_follow hfound)) hstate
        next => exact .pure hstate
      next => exact .malformed
    next => exact .malformed

theorem entries_keeps {plan : Plan ε σ} {post : σ → Prop} (fuel : Nat) (trail : Trail)
    {pairs : List (Node × Node)} (hplan : plan.KeepsAt anchored pairs post) (met : Met) {acc : σ}
    (hacc : post acc) :
    YieldsAt anchored (entries plan fuel trail pairs met acc) fun r => post r.1 := by
  induction fuel generalizing trail pairs met acc with
  | zero => exact .malformed
  | succ fuel ih =>
    rw [entries_succ]
    refine .bind fun state hstate => ?_
    have hstate := ownEntries_keeps trail hplan met hacc state hstate
    refine mergeLast_keeps trail (fun trail inner state hinner hstate => ?_) hstate
    exact ih trail (hplan.imp hinner) state.2 hstate

/-- The plan keeps the property. -/
def Plan.Keeps (plan : Plan ε σ) (post : σ → Prop) : Prop :=
  ∀ trail key k v acc, post acc → Yields (plan.put trail key k v acc) post

theorem entries_yields {plan : Plan ε σ} {post : σ → Prop} (hplan : plan.Keeps post) (fuel : Nat)
    (trail : Trail) (pairs : List (Node × Node)) (met : Met) {acc : σ} (hacc : post acc) :
    Yields (entries plan fuel trail pairs met acc) fun r => post r.1 :=
  yields_iff.2 fun anchored => entries_keeps fuel trail
    (fun trail key k v acc _ _ hacc => yields_iff.1 (hplan trail key k v acc hacc) anchored) met hacc

/-! ## Records -/

/-- Of the pairs that are offered, those that give a field are taken in without losing the
property. -/
def Shape.KeepsAt (anchored : Array (Option Node)) (shape : Shape ε σ) (pairs : List (Node × Node))
    (post : σ → Prop) : Prop :=
  ∀ field ∈ shape.fields, ∀ trail k v acc, Offers anchored pairs (k, v) →
    (∃ trail, Gives anchored (fieldName trail k : Reading ε _) (some (.string field.name))) →
      post acc → YieldsAt anchored (field.put trail v acc) post

theorem fieldPlan_keeps {shape : Shape ε σ} {pairs : List (Node × Node)} {post : σ → Prop}
    (h : shape.KeepsAt anchored pairs post) :
    (fieldPlan shape).KeepsAt anchored pairs fun state => post state.1 := by
  intro trail key k v state hp hkey hstate
  unfold fieldPlan
  simp only
  split
  next name =>
    split
    next field hfield =>
      split
      next => exact .bind fun _ _ => .pure hstate
      next =>
        have hname : field.name = name := by simpa using List.find?_some hfield
        have hput := h field (List.mem_of_find?_eq_some hfield) trail k v state.1 hp
          (hname ▸ hkey) hstate
        exact .bind fun acc hacc => .pure (hput acc hacc)
    next =>
      split
      next => exact .bind fun _ _ => .pure hstate
      next => exact .pure hstate
  next => exact .pure hstate

theorem recordAt_keeps {shape : Shape ε σ} {post : σ → Prop} (fuel : Nat) {init : σ}
    (hinit : post init) (trail : Trail) (n : Node)
    (h : ∀ tag pairs line, n = .mapping tag pairs line → shape.KeepsAt anchored pairs post) :
    YieldsAt anchored (recordAt fuel shape init trail n) fun r => ∀ a ∈ r, post a := by
  cases n with
  | scalar tag written line =>
    refine .bind fun value _ => ?_
    simp only
    split
    next => exact .bind fun _ _ => .pure nofun
    next => exact .pure nofun
  | mapping tag pairs line =>
    refine .bind fun distinct _ => ?_
    split
    next =>
      have hentries := entries_keeps fuel trail (fieldPlan_keeps (h tag pairs line rfl)) none
        (show post (init, ([] : List String)).1 from hinit)
      refine .bind fun r hr => .pure ?_
      rintro a ⟨⟩
      exact hentries r hr
    next => exact .pure nofun
  | sequence tag items line => exact .bind fun _ _ => .pure nofun
  | reference name id serial line => exact .bind fun _ _ => .pure nofun

theorem record_keeps {shape : Shape ε σ} {post : σ → Prop} (fuel : Nat) {init : σ}
    (hinit : post init) (trail : Trail) (n : Node)
    (h : ∀ tag pairs line, n.target? anchored = some (.mapping tag pairs line) →
      shape.KeepsAt anchored pairs post) :
    YieldsAt anchored (record fuel shape init trail n) fun r => ∀ a ∈ r, post a := by
  refine .bind fun found hfound => recordAt_keeps fuel hinit found.2 found.1 ?_
  intro tag pairs line hn
  exact h tag pairs line ((target?_of_follow hfound).trans (congrArg some hn))

theorem textField_keeps {post : σ → Prop} {name : String} {put : String → σ → σ}
    (h : ∀ s acc, post acc → post (put s acc)) (trail : Trail) (n : Node) (acc : σ)
    (hacc : post acc) : Yields ((textField name put : Field ε σ).put trail n acc) post := by
  refine .andThen fun s => ?_
  cases s with
  | none => exact .pure hacc
  | some s => exact .pure (h s acc hacc)

/-! ## Whole documents -/

theorem run_eq_ok_iff {x : Reading ε α} {a : α} : x.run anchored = .ok a ↔
    ∃ tally, x anchored Tally.start = .ok (a, tally) ∧ tally.issues = [] := by
  unfold Reading.run
  change ((x anchored Tally.start >>= fun r =>
    if r.2.issues.isEmpty then pure r.1 else throw _) = _) ↔ _
  cases x anchored Tally.start with
  | error e => simp [bind, Except.bind]
  | ok r =>
    obtain ⟨b, tally⟩ := r
    simp only [bind, Except.bind, List.isEmpty_iff]
    constructor
    · intro h
      split at h
      next hnone =>
        cases h
        exact ⟨tally, rfl, hnone⟩
      next => cases h
    · rintro ⟨tally', hx, hnone⟩
      cases hx
      rw [if_pos hnone]
      rfl

theorem run_yields {x : Reading ε α} {post : α → Prop} {a : α} (h : YieldsAt anchored x post)
    (hx : x.run anchored = .ok a) : post a := by
  obtain ⟨tally, hx, -⟩ := run_eq_ok_iff.1 hx
  exact h a ⟨_, tally, hx⟩

end Reading

end Arbor.Yaml
