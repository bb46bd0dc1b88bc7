import Arbor.Package.Manifest.Read
import Arbor.Proofs.Yaml.Issues

/-!
The parts of a draft and what a document says of them.

The readers of the parts lose no issue (`Draft.shape_faithful`), and each field changes its own part of
the draft only (`Draft.shape_changes`). So what the draft holds was read from what the mapping at the
root offers for it (`Draft.parse_offered`), and from the pair that the mapping gives itself if there is
one (`Draft.parse_part`).
-/

set_option autoImplicit false

namespace Arbor.Package

open Yaml (Reading Fault Trail)
open Yaml.Reading (Faithful Accepts Gives Yields YieldsAt)

section

variable {ε α β : Type} {e : ε}

theorem bind_ne_error {x : Except ε α} {f : α → Except ε β} (hx : x ≠ .error e)
    (hf : ∀ a, f a ≠ .error e) : (x >>= f) ≠ .error e := by
  cases x with
  | error e' => exact fun h => hx (congrArg _ (Except.error.inj h))
  | ok a => exact hf a

theorem exists_of_bind_eq_ok {x : Except ε α} {f : α → Except ε β} {b : β}
    (h : (x >>= f) = .ok b) : ∃ a, x = .ok a ∧ f a = .ok b := by
  cases x with
  | error e => cases h
  | ok a => exact ⟨a, rfl, h⟩

theorem eq_ok_of_mapError {ε' : Type} {f : ε → ε'} {x : Except ε α} {a : α}
    (h : x.mapError f = .ok a) : x = .ok a := by
  cases x with
  | error e => cases h
  | ok b => exact congrArg _ (Except.ok.inj h)

theorem mapM_ne_error {f : α → Except ε β} (hf : ∀ a, f a ≠ .error e) (l : List α) :
    l.mapM f ≠ .error e := by
  induction l with
  | nil => exact nofun
  | cons a l ih =>
    rw [List.mapM_cons]
    exact bind_ne_error (hf a) fun b => bind_ne_error ih fun bs => nofun

theorem foldlM_ne_error {f : β → α → Except ε β} (hf : ∀ b a, f b a ≠ .error e) (l : List α) (b : β) :
    l.foldlM f b ≠ .error e := by
  induction l generalizing b with
  | nil => exact nofun
  | cons a l ih =>
    rw [List.foldlM_cons]
    exact bind_ne_error (hf b a) ih

end

namespace Draft

variable {anchored : Array (Option Yaml.Node)} {fuel : Nat}

/-! ## Why parts fail -/

theorem passed_ne {α : Type} {r : Except (Fault Empty) α} (h : r ≠ .error (.issues [])) :
    passed r ≠ .error (.issues []) := by
  cases r with
  | ok a => exact nofun
  | error fault =>
    cases fault with
    | malformed => exact nofun
    | issues list =>
      intro heq
      exact h (congrArg _ (congrArg _ (Fault.issues.inj (Except.error.inj heq))))
    | refused e => exact e.elim

theorem refusing_ne {α : Type} (reason : Fault Empty → Refusal) (r : Except (Fault Empty) α) :
    refusing reason r ≠ .error (.issues []) := by
  cases r <;> exact nofun

theorem passed_textOf_ne (n : Yaml.Node) : passed (textOf anchored n) ≠ .error (.issues []) := by
  refine passed_ne fun h => ?_
  unfold textOf at h
  cases hr : (Reading.text [] n : Reading Empty (Option String)).run anchored with
  | ok s =>
    rw [hr] at h
    cases h
  | error fault =>
    rw [hr] at h
    cases h
    exact Reading.run_ne_issues (Reading.text_faithful [] n) anchored hr

theorem readAuthors_ne (n : Yaml.Node) : readAuthors anchored n ≠ .error (.issues []) := by
  cases n with
  | scalar | mapping | reference => exact nofun
  | sequence tag items line =>
    refine mapM_ne_error (fun n => bind_ne_error (passed_textOf_ne n) fun s => ?_) items
    exact nofun

theorem readEntry_ne (n : Yaml.Node) : readEntry anchored fuel n ≠ .error (.issues []) := by
  cases n with
  | sequence | reference => exact nofun
  | mapping tag pairs line => exact bind_ne_error (refusing_ne _ _) fun _ => nofun
  | scalar tag written line =>
    unfold readEntry
    simp only
    split <;> exact nofun

theorem readModules_ne (n : Yaml.Node) : readModules anchored n ≠ .error (.issues []) := by
  cases n with
  | scalar | sequence | reference => exact nofun
  | mapping tag pairs line =>
    refine mapM_ne_error (fun p => ?_) pairs
    exact bind_ne_error (passed_textOf_ne p.1) fun _ => bind_ne_error (refusing_ne _ _) fun _ => nofun

theorem readDependency_ne (name : String) (n : Yaml.Node) :
    readDependency anchored fuel name n ≠ .error (.issues []) := by
  cases n with
  | sequence | reference => exact nofun
  | mapping tag pairs line => exact bind_ne_error (refusing_ne _ _) fun _ => nofun
  | scalar tag written line =>
    unfold readDependency
    simp only
    split <;> exact nofun

theorem readDependencies_ne (n : Yaml.Node) :
    readDependencies anchored fuel n ≠ .error (.issues []) := by
  cases n with
  | scalar | sequence | reference => exact nofun
  | mapping tag pairs line =>
    unfold readDependencies
    refine foldlM_ne_error (fun t p => ?_) pairs []
    refine bind_ne_error (passed_textOf_ne p.1) fun written => ?_
    simp only
    split
    next => exact nofun
    next => exact bind_ne_error (readDependency_ne _ _) fun _ => nofun

/-! ## Fields without issues -/

theorem bareMisfit_faithful (target : String) (trail : Trail) (n : Yaml.Node) (d : Draft) :
    Faithful (bareMisfit target trail n d) := by
  have hlast : ∀ fits : Bool, Faithful (do
      if fits then Reading.misfit n target
      return d : Reading Refusal Draft) := by
    intro fits
    split
    next => exact (Reading.misfit_faithful n target).bind fun _ => .pure d
    next => exact .pure d
  cases n with
  | mapping tag pairs line => exact (Reading.distinctKeys_faithful pairs).bind hlast
  | scalar | sequence | reference => exact (Faithful.pure true).bind hlast

theorem bareAuthors_faithful (trail : Trail) (n : Yaml.Node) (d : Draft) :
    Faithful (bareAuthors trail n d) := by
  cases n with
  | sequence tag items line =>
    exact Faithful.bind (.mapM fun n => Reading.text_faithful trail n) fun _ => .pure _
  | scalar | mapping | reference =>
    unfold bareAuthors
    exact bareMisfit_faithful _ trail _ d

theorem bareModules_faithful (fuel : Nat) (trail : Trail) (n : Yaml.Node) (d : Draft) :
    Faithful (bareModules fuel trail n d) :=
  (Reading.recordAt_faithful nofun fuel () trail n).bind fun _ => .pure d

theorem bareDependencyShape_faithful : bareDependencyShape.Faithful := by
  intro field hfield
  simp only [bareDependencyShape, dependencyFields, List.mem_cons, List.not_mem_nil, or_false] at hfield
  obtain rfl | rfl | rfl | rfl | rfl := hfield <;> exact Reading.textField_faithful _ _

theorem barePlan_faithful (fuel : Nat) : (barePlan fuel).Faithful where
  key := Reading.fieldName_faithful
  loose := Reading.scalarKey_faithful
  put trail key k v t := by
    refine (Reading.follow_faithful trail v).bind fun found => ?_
    obtain ⟨v, trail⟩ := found
    simp only
    split
    next =>
      split
      next =>
        split
        next => exact (Reading.scalar_faithful _ _).bind fun _ => .pure _
        next => exact (bareMisfit_faithful _ _ _ _).bind fun _ => .pure _
      next =>
        refine (Reading.recordAt_faithful bareDependencyShape_faithful fuel _ trail v).bind fun d => ?_
        cases d <;> exact .pure _
    next => exact .pure t

theorem bareDependencies_faithful (fuel : Nat) (trail : Trail) (n : Yaml.Node) (d : Draft) :
    Faithful (bareDependencies fuel trail n d) := by
  cases n with
  | mapping tag pairs line =>
    refine (Reading.distinctKeys_faithful pairs).bind fun distinct => ?_
    split
    next =>
      exact (Reading.entries_faithful (barePlan_faithful fuel) fuel trail pairs none []).bind
        fun _ => .pure _
    next => exact .pure d
  | scalar | sequence | reference =>
    unfold bareDependencies
    exact bareMisfit_faithful _ trail _ d

section

variable {α : Type} {name : String} {part : Array (Option Yaml.Node) → Yaml.Node → Part α}
  {put : α → Draft → Draft} {bare : Bare}

theorem partField_faithful (hpart : ∀ anchored n, part anchored n ≠ .error (.issues []))
    (hbare : ∀ trail n d, Faithful (bare trail n d)) (trail : Trail) (n : Yaml.Node) (d : Draft) :
    Faithful ((partField name part put bare).put trail n d) := by
  refine (Reading.follow_faithful trail n).bind fun found => ?_
  obtain ⟨n, trail⟩ := found
  simp only
  split
  next =>
    split
    next => exact (Reading.scalar_faithful _ _).bind fun _ => .pure d
    next => exact hbare trail n d
  next =>
    refine .read_bind fun anchored => ?_
    split
    next => exact .pure _
    next list hlist => exact Faithful.bind (.forM fun i => .report i) fun _ => .pure d
    next fault hlist hfault => exact .throw fun h => hpart anchored n (h ▸ hfault)

/-- A part that was taken in without issues was read by its reader, unless it is tagged as null. -/
theorem partField_accepts (hpart : ∀ anchored n, part anchored n ≠ .error (.issues []))
    {trail : Trail} {v n : Yaml.Node} (hv : v.target? anchored = some n)
    (htag : n.tag ≠ Yaml.Tag.null) {d d' : Draft}
    (h : Accepts anchored ((partField name part put bare).put trail v d) d') :
    ∃ x, part anchored n = .ok x ∧ d' = put x d := by
  obtain ⟨tally, tally', h, hnone⟩ := h
  obtain ⟨⟨target, trail⟩, mid, hfollow, h⟩ := Reading.bind_eq_ok_iff.1 h
  obtain rfl := Option.some.inj (hv.symm.trans (Reading.target?_of_follow ⟨tally, mid, hfollow⟩))
  simp only [beq_iff_eq, if_neg htag] at h
  obtain ⟨_, _, hread, h⟩ := Reading.bind_eq_ok_iff.1 h
  cases hread
  cases hx : part anchored n with
  | ok x =>
    rw [hx] at h
    obtain ⟨rfl, -⟩ := Reading.pure_eq_ok_iff.1 h
    exact ⟨x, rfl, rfl⟩
  | error fault =>
    rw [hx] at h
    cases fault with
    | malformed => cases h
    | refused => cases h
    | issues list =>
      have h : Accepts anchored _ d' := ⟨mid, tally', h, hnone⟩
      obtain ⟨_, hreports, -⟩ := h.of_bind fun _ => .pure d
      cases list with
      | nil => exact absurd hx (hpart anchored n)
      | cons i list =>
        obtain ⟨_, hreport, -⟩ := hreports.of_bind fun _ => .forM fun i => .report i
        exact absurd hreport Reading.not_accepts_report

end

theorem shape_faithful (fuel : Nat) : (shape fuel).Faithful := by
  intro field hfield
  simp only [shape, List.mem_cons, List.not_mem_nil, or_false] at hfield
  obtain rfl | rfl | rfl | rfl | rfl | rfl := hfield
  · exact Reading.textField_faithful _ _
  · exact Reading.textField_faithful _ _
  · exact partField_faithful (fun _ n => readAuthors_ne n) bareAuthors_faithful
  · exact partField_faithful (fun _ n => readEntry_ne n) (bareMisfit_faithful _)
  · exact partField_faithful (fun _ n => readModules_ne n) (bareModules_faithful fuel)
  · exact partField_faithful (fun _ n => readDependencies_ne n) (bareDependencies_faithful fuel)

/-! ## What a field changes -/

theorem bareMisfit_yields (target : String) (trail : Trail) (n : Yaml.Node) {d : Draft}
    {post : Draft → Prop} (hd : post d) : Yields (bareMisfit target trail n d) post := by
  unfold bareMisfit
  cases n <;> refine .andThen fun fits => ?_
  all_goals
    simp only
    split
    · exact .andThen fun _ => .pure hd
    · exact .pure hd

section

variable {α : Type} {name : String} {part : Array (Option Yaml.Node) → Yaml.Node → Part α}
  {put : α → Draft → Draft} {bare : Bare}

theorem partField_yields {post : Draft → Prop} (trail : Trail) {v : Yaml.Node} {d : Draft}
    (hput : ∀ n x, v.target? anchored = some n → n.tag ≠ Yaml.Tag.null →
      part anchored n = .ok x → post (put x d))
    (hbare : ∀ n trail, v.target? anchored = some n → n.tag = Yaml.Tag.null →
      YieldsAt anchored (bare trail n d) post) (hd : post d) :
    YieldsAt anchored ((partField name part put bare).put trail v d) post := by
  refine .bind fun found hfound => ?_
  obtain ⟨n, trail'⟩ := found
  have hn := Reading.target?_of_follow hfound
  simp only
  split
  next htag =>
    split
    next => exact .bind fun _ _ => .pure hd
    next => exact hbare n trail' hn (beq_iff_eq.1 htag)
  next htag =>
    refine .read_bind ?_
    split
    next x hx => exact .pure (hput n x hn (by simpa using htag) hx)
    next => exact .bind fun _ _ => .pure hd
    next => exact .throw _

theorem partField_keeps {post : Draft → Prop}
    (hput : ∀ anchored n a d, part anchored n = .ok a → post d → post (put a d))
    (hbare : ∀ trail n d, post d → Yields (bare trail n d) post) (trail : Trail) (n : Yaml.Node)
    (d : Draft) (hd : post d) : Yields ((partField name part put bare).put trail n d) post :=
  Reading.yields_iff.2 fun anchored => partField_yields trail
    (fun n x _ _ hx => hput anchored n x d hx hd)
    (fun n trail _ _ => Reading.yields_iff.1 (hbare trail n d hd) anchored) hd

end

/-- The drafts differ in one field at most. -/
structure SameBut (field : String) (d d' : Draft) : Prop where
  authors : field ≠ "authors" → d'.authors = d.authors
  entry : field ≠ "entry" → d'.entry = d.entry
  modules : field ≠ "modules" → d'.modules = d.modules
  dependencies : field ≠ "dependencies" → d'.dependencies = d.dependencies

theorem SameBut.refl (field : String) (d : Draft) : SameBut field d d :=
  ⟨fun _ => rfl, fun _ => rfl, fun _ => rfl, fun _ => rfl⟩

theorem shape_changes (fuel : Nat) (d : Draft) : ∀ field ∈ (shape fuel).fields, ∀ trail n,
    Reading.Yields (field.put trail n d) (SameBut field.name d) := by
  intro field hfield trail n
  have hd := SameBut.refl field.name d
  simp only [shape, List.mem_cons, List.not_mem_nil, or_false] at hfield
  obtain rfl | rfl | rfl | rfl | rfl | rfl := hfield
  · exact Reading.textField_keeps (fun s d' h => ⟨h.authors, h.entry, h.modules, h.dependencies⟩)
      trail n d hd
  · exact Reading.textField_keeps (fun s d' h => ⟨h.authors, h.entry, h.modules, h.dependencies⟩)
      trail n d hd
  · have hput : ∀ d' authors, SameBut "authors" d d' →
        SameBut "authors" d { d' with authors := authors } := fun d' authors h =>
      { h with authors := fun h => absurd rfl h }
    refine partField_keeps (fun _ _ a d' _ => hput d' a) (fun trail n d' h => ?_) trail n d hd
    cases n with
    | sequence => exact .andThen fun texts => .pure (hput d' _ h)
    | scalar | mapping | reference =>
      unfold bareAuthors
      exact bareMisfit_yields _ trail _ h
  · exact partField_keeps (fun _ _ e d' _ h => { h with entry := fun h => absurd rfl h })
      (fun trail n d' h => bareMisfit_yields _ trail n h) trail n d hd
  · exact partField_keeps (fun _ _ ms d' _ h => { h with modules := fun h => absurd rfl h })
      (fun trail n d' h => .andThen fun _ => .pure h) trail n d hd
  · have hput : ∀ d' t, SameBut "dependencies" d d' →
        SameBut "dependencies" d { d' with dependencies := t } := fun d' t h =>
      { h with dependencies := fun h => absurd rfl h }
    refine partField_keeps (fun _ _ t d' _ => hput d' t) (fun trail n d' h => ?_) trail n d hd
    cases n with
    | mapping =>
      refine .andThen fun distinct => ?_
      split
      next => exact .andThen fun r => .pure (hput d' _ h)
      next => exact .pure h
    | scalar | sequence | reference =>
      unfold bareDependencies
      exact bareMisfit_yields _ trail _ h

theorem field_unique {fuel : Nat} {field other : Reading.Field Refusal Draft} {name : String}
    (hfield : field ∈ (shape fuel).fields) (hname : field.name = name)
    (hother : (shape fuel).fields.find? (·.name == name) = some other) : field = other := by
  subst hname
  simp only [shape, List.mem_cons, List.not_mem_nil, or_false] at hfield
  obtain rfl | rfl | rfl | rfl | rfl | rfl := hfield <;> exact Option.some.inj hother

/-! ## Parts of the root -/

/-- How the draft of a document is read. -/
def reading (s : Yaml.Stream) : Reading Refusal (Option Draft) := do
  Reading.visit []
  Reading.record s.depth (shape s.depth) blank [] s.root

theorem parse_eq_ok_iff {bytes : List UInt8} {d : Draft} : Draft.parse bytes = .ok (some d) ↔
    ∃ s r, Yaml.firstDocument bytes = .ok (some s) ∧ (reading s).run s.anchored = .ok r ∧
      d = r.getD blank := by
  unfold Draft.parse
  cases hdoc : Yaml.firstDocument bytes with
  | error e =>
    change Except.error _ = Except.ok _ ↔ _
    simp
  | ok doc =>
    cases doc with
    | none =>
      change Except.ok none = Except.ok _ ↔ _
      simp
    | some s =>
      change ((reading s).run s.anchored >>= fun r => pure (some (r.getD blank))) = _ ↔ _
      cases hread : (reading s).run s.anchored with
      | error e =>
        simp only [bind, Except.bind, reduceCtorEq, false_iff, not_exists, not_and]
        rintro s' r ⟨⟩ hr
        cases hread.symm.trans hr
      | ok r =>
        constructor
        · intro h
          cases h
          exact ⟨s, r, rfl, hread, rfl⟩
        · rintro ⟨s', r', ⟨⟩, hr, rfl⟩
          cases hread.symm.trans hr
          rfl

section

variable {α : Type} {name : String} {part : Array (Option Yaml.Node) → Yaml.Node → Part α}
  {put : α → Draft → Draft} {bare : Bare}

variable {bytes : List UInt8} {d : Draft} {s : Yaml.Stream}

/-- What the draft holds in a part was read from the pair of the root that gives it. -/
theorem parse_part (post : α → Draft → Prop) (h : Draft.parse bytes = .ok (some d))
    (hdoc : Yaml.firstDocument bytes = .ok (some s)) {tag : String}
    {pairs : List (Yaml.Node × Yaml.Node)} {line : Nat} (hroot : s.root = .mapping tag pairs line)
    {v n : Yaml.Node} {kline : Nat} (hp : (.scalar Yaml.Tag.str name kline, v) ∈ pairs)
    (hv : v.target? s.anchored = some n) (htag : n.tag ≠ Yaml.Tag.null)
    (hfield : (shape s.depth).fields.find? (·.name == name) = some (partField name part put bare))
    (hpart : ∀ anchored n, part anchored n ≠ .error (.issues [])) (hput : ∀ x d, post x (put x d))
    (hothers : ∀ x d d' other, other ≠ name → SameBut other d d' → post x d → post x d') :
    ∃ x, part s.anchored n = .ok x ∧ post x d := by
  obtain ⟨s', r, hdoc', hr, rfl⟩ := parse_eq_ok_iff.1 h
  cases hdoc.symm.trans hdoc'
  have hread : Accepts s.anchored (reading s) r := Reading.accepts_of_run hr
  obtain ⟨-, -, hread⟩ := hread.of_bind fun _ =>
    Reading.record_faithful (shape_faithful s.depth) s.depth blank [] s.root
  rw [hroot] at hread
  obtain ⟨d, rfl, hd⟩ : ∃ d, r = some d ∧ ∃ x, part s.anchored n = .ok x ∧ post x d := by
    refine Reading.record_field (shape_faithful s.depth) s.depth rfl hfield hp ?_ ?_ hread
    · intro trail acc a ha
      obtain ⟨x, hx, rfl⟩ := partField_accepts hpart hv htag ha
      exact ⟨x, hx, hput x acc⟩
    · rintro other hother hne trail n acc ⟨x, hx, hpost⟩ a ha
      have hsame := Reading.yields_iff.1 (shape_changes s.depth acc other hother trail n) _ a ha
      exact ⟨x, hx, hothers x acc a other.name hne hsame hpost⟩
  exact hd

/-- The mapping at the root offers the node as the value of that field. -/
def Offered (s : Yaml.Stream) (name : String) (n : Yaml.Node) : Prop :=
  ∃ tag pairs line k v, s.root.target? s.anchored = some (.mapping tag pairs line) ∧
    Yaml.Offers s.anchored pairs (k, v) ∧ v.target? s.anchored = some n ∧
    ∃ trail, Gives s.anchored (Reading.fieldName trail k : Reading Refusal _) (some (.string name))

/-- What a part keeps is kept by the whole, as no other field changes it. -/
theorem parse_offered (name : String) (post : Draft → Prop) (h : Draft.parse bytes = .ok (some d))
    (hdoc : Yaml.firstDocument bytes = .ok (some s)) (hblank : post blank)
    (hothers : ∀ d d' other, other ≠ name → SameBut other d d' → post d → post d')
    (hfield : (shape s.depth).fields.find? (·.name == name) = some (partField name part put bare))
    (hput : ∀ n x d, Offered s name n → n.tag ≠ Yaml.Tag.null → part s.anchored n = .ok x →
      post d → post (put x d))
    (hbare : ∀ n trail d, Offered s name n → n.tag = Yaml.Tag.null → post d →
      YieldsAt s.anchored (bare trail n d) post) : post d := by
  obtain ⟨s', r, hdoc', hr, rfl⟩ := parse_eq_ok_iff.1 h
  cases hdoc.symm.trans hdoc'
  have hyields : YieldsAt s.anchored (reading s) fun r => ∀ d ∈ r, post d := by
    refine .bind fun _ _ => Reading.record_keeps s.depth hblank [] s.root ?_
    intro tag pairs line hroot field hin trail k v d hoffers hkey hd
    by_cases hname : field.name = name
    · rw [field_unique hin hname hfield]
      have hoffered : ∀ n, v.target? s.anchored = some n → Offered s name n := fun n hn =>
        ⟨tag, pairs, line, k, v, hroot, hoffers, hn, hname ▸ hkey⟩
      exact partField_yields trail (fun n x hn htag hx => hput n x d (hoffered n hn) htag hx hd)
        (fun n trail hn htag => hbare n trail d (hoffered n hn) htag hd) hd
    · have hsame := Reading.yields_iff.1 (shape_changes s.depth d field hin trail v) s.anchored
      exact fun d' hd' => hothers d d' field.name hname (hsame d' hd') hd
  have hkept := Reading.run_yields hyields hr
  cases r with
  | none => exact hblank
  | some d => exact hkept d rfl

end

end Draft

end Arbor.Package
