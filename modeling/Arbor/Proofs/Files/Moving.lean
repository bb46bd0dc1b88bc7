import Arbor.Proofs.Files.Temporary

/-!
A directory that is made beside others and moved to its own place.

What a tree has outside a place is told by `Tree.Within`. If the place was new, the other tree with it
moved to another new place beside it came later than the first one (`Tree.Within.moved_later`).
-/

set_option autoImplicit false

namespace Arbor.Files.Tree

variable {t t' : Tree} {here old new : String} {p q r : Place}

/-! ## Places that are moved -/

theorem lookup_map_keys {α β γ : Type} [BEq α] [LawfulBEq α] [BEq γ] [LawfulBEq γ] {f : α → γ}
    {entries : List (α × β)} {a : α} {c : γ} (h : ∀ x ∈ entries, f x.1 = c ↔ x.1 = a) :
    (entries.map fun x => (f x.1, x.2)).lookup c = entries.lookup a := by
  induction entries with
  | nil => rfl
  | cons x rest ih =>
    obtain ⟨hx, hrest⟩ := List.forall_mem_cons.1 h
    rw [List.map_cons, List.lookup_cons, List.lookup_cons, ih hrest]
    by_cases hfirst : x.1 = a
    · simp [hx.2 hfirst, ← hfirst]
    · have hother : f x.1 ≠ c := fun hc => hfirst (hx.1 hc)
      simp [beq_eq_false_iff_ne.2 (Ne.symm hfirst), beq_eq_false_iff_ne.2 (Ne.symm hother)]

theorem redirect_below (p q a : Place) : redirect p q (a ++ p) = a ++ q := by
  simp [redirect]

theorem redirect_of_not (q : Place) (h : ¬ p <:+ r) : redirect p q r = r := by
  rw [redirect, if_neg]
  exact fun hbelow => h (List.isSuffixOf_iff_suffix.1 hbelow)

theorem not_below_of_mem_without {x : Place × Entry} (h : x ∈ (t.without q).entries) :
    ¬ q <:+ x.1 := by
  have hkeep := (List.mem_filter.1 h).2
  intro hbelow
  simp [List.isSuffixOf_iff_suffix.2 hbelow] at hkeep

theorem at?_moved_below (hp : p ≠ []) (hq : q ≠ []) (hnone : t.without q = t) (a : Place) :
    (t.moved p q).at? (a ++ q) = t.at? (a ++ p) := by
  have hkeys : ∀ x ∈ (t.without q).entries, redirect p q x.1 = a ++ q ↔ x.1 = a ++ p := by
    intro x hx
    constructor
    · intro hto
      by_cases hbelow : p <:+ x.1
      · obtain ⟨b, hb⟩ := hbelow
        rw [← hb, redirect_below, List.append_cancel_right_eq] at hto
        rw [← hb, hto]
      · rw [redirect_of_not q hbelow] at hto
        exact absurd (hto ▸ List.suffix_append a q) (not_below_of_mem_without hx)
    · intro hfrom
      rw [hfrom, redirect_below]
  have hlookup : (t.moved p q).entries.lookup (a ++ q) = (t.without q).entries.lookup (a ++ p) :=
    lookup_map_keys hkeys
  rw [hnone] at hlookup
  have hto : a ++ q ≠ [] := by simp [hq]
  have hfrom : a ++ p ≠ [] := by simp [hp]
  obtain ⟨x, u, hu⟩ := List.exists_cons_of_ne_nil hto
  obtain ⟨y, v, hv⟩ := List.exists_cons_of_ne_nil hfrom
  rw [hu, hv] at hlookup ⊢
  exact hlookup

theorem at?_moved_other (hnone : t.without q = t) (hr : ¬ q <:+ r) (hp : ¬ p <:+ r) :
    (t.moved p q).at? r = t.at? r := by
  cases r with
  | nil => rfl
  | cons e r =>
    have hkeys : ∀ x ∈ (t.without q).entries, redirect p q x.1 = e :: r ↔ x.1 = e :: r := by
      intro x _
      constructor
      · intro hto
        by_cases hbelow : p <:+ x.1
        · obtain ⟨b, hb⟩ := hbelow
          rw [← hb, redirect_below] at hto
          exact absurd (hto ▸ List.suffix_append b q) hr
        · rwa [redirect_of_not q hbelow] at hto
      · intro hfrom
        rw [hfrom, redirect_of_not q hp]
    have hlookup : (t.moved p q).entries.lookup (e :: r) = (t.without q).entries.lookup (e :: r) :=
      lookup_map_keys hkeys
    rw [hnone] at hlookup
    exact hlookup

theorem at?_moved_away (hr : ¬ q <:+ r) (hp : p <:+ r) (hne : p ≠ []) :
    (t.moved p q).at? r = none := by
  cases r with
  | nil => exact absurd (List.suffix_nil.1 hp) hne
  | cons e r =>
    refine List.lookup_eq_none_iff.2 fun x hx => ?_
    obtain ⟨y, -, rfl⟩ := List.mem_map.1 hx
    rw [bne_iff_ne]
    intro heq
    have heq : e :: r = redirect p q y.1 := heq
    by_cases hbelow : p <:+ y.1
    · obtain ⟨b, hb⟩ := hbelow
      rw [← hb, redirect_below] at heq
      exact hr (heq ▸ List.suffix_append b q)
    · rw [redirect_of_not q hbelow] at heq
      exact hbelow (heq ▸ hp)

/-! ## Paths -/

theorem follow_ne_present {es : List String} : t.follow p es ≠ .error .present := by
  induction es generalizing p with
  | nil => nofun
  | cons e es ih =>
    unfold follow
    split
    next => nofun
    next => nofun
    next =>
      split
      next => exact ih
      next =>
        split
        next => exact ih
        next =>
          split
          next => nofun
          next => exact ih

/-- That something is there already is no reason for a path to lead nowhere. -/
theorem locate_ne_present {path : String} : t.locate here path ≠ .error .present := by
  unfold locate
  split
  · nofun
  · split
    · nofun
    · split
      · nofun
      · simp only [bind, Except.bind]
        split
        next e he =>
          intro h
          cases h
          exact follow_ne_present he
        next p _ =>
          split
          · split <;> nofun
          · nofun

/-! ## Trees with something else at one place -/

/-- The second tree is the first one, but for a directory at a place and what is in it. -/
structure Within (p : Place) (t t' : Tree) : Prop where
  sound : t'.Sound
  outside : t'.without p = t.without p
  directory : ∀ bytes, t'.at? p ≠ some (.file bytes)

theorem Within.without_eq (h : Within p t t') (ht : t.Sound) (hp : t.at? p = none) :
    t'.without p = t := h.outside.trans (ht.without_none hp)

theorem Within.at?_eq (h : Within p t t') (hp : p ≠ []) (hr : ¬ p <:+ r) :
    t'.at? r = t.at? r := by
  have hsame := congrArg (·.at? r) h.outside
  simp only [at?_without hp, if_neg hr] at hsame
  exact hsame

theorem Within.trans {t'' : Tree} (h : Within p t t') (h' : Within p t' t'') : Within p t t'' :=
  ⟨h'.sound, h'.outside.trans h.outside, h'.directory⟩

theorem without_set (h : p <:+ q) (t : Tree) (e : Entry) : (t.set q e).without p = t.without p := by
  have hdrop : (!p.isSuffixOf q) = false := by simp [List.isSuffixOf_iff_suffix.2 h]
  exact congrArg Tree.mk (filter_setEntry (fun r => !p.isSuffixOf r) hdrop e t.entries)

/-- A directory that is made at a new place. -/
theorem Sound.within_new {path : String} (ht : t.Sound) (hlocate : t.locate here path = .ok p)
    (hnone : t.at? p = none) :
    Within p t (t.set p .directory) ∧ (t.set p .directory).at? p = some .directory := by
  have hne : p ≠ [] := by
    rintro rfl
    cases hnone
  have hmade : (t.set p .directory).at? p = some .directory := by
    rw [at?_set t hne, if_pos rfl]
  refine ⟨⟨ht.set_new hlocate hnone, without_set List.suffix_rfl t _, fun bytes hfile => ?_⟩, hmade⟩
  cases hmade.symm.trans hfile

/-- A file that is put into the directory. -/
theorem Within.set_file {e : String} (hw : Within p t t') (hdir : t'.at? p = some .directory)
    (hfile : t'.at? (e :: p) ≠ some .directory) (bytes : List UInt8) :
    Within p t (t'.set (e :: p) (.file bytes)) where
  sound := hw.sound.set_file hdir hfile bytes
  outside := (without_set (List.suffix_cons e p) t' _).trans hw.outside
  directory := by
    intro bytes' hbytes
    have hkept := (later_set hfile bytes).directory p hdir
    cases hkept.symm.trans hbytes

/-- Two new places in one directory. -/
structure Beside (t : Tree) (p q : Place) : Prop where
  apart : ∃ x y b, p = x :: b ∧ q = y :: b ∧ x ≠ y ∧ t.at? b = some .directory
  source : t.at? p = none
  target : t.at? q = none

theorem not_suffix_of_beside {x y : String} {b : Place} (h : x ≠ y) : ¬ x :: b <:+ y :: b := by
  intro hs
  have := List.IsSuffix.eq_of_length hs rfl
  cases this
  exact h rfl

theorem Within.target_none (hb : t.Beside p q) (hw : Within p t t') : t'.at? q = none := by
  obtain ⟨⟨x, y, b, rfl, rfl, hne, -⟩, -, hq⟩ := hb
  rw [hw.at?_eq (List.cons_ne_nil _ _) (not_suffix_of_beside hne), hq]

section

variable (ht : t.Sound) (hb : t.Beside p q) (hw : Within p t t')
include ht hb hw

theorem Within.moved_cases (r : Place) :
    (∃ a, r = a ++ q ∧ (t'.moved p q).at? r = t'.at? (a ++ p) ∧ t.at? r = none) ∨
      (¬ q <:+ r ∧ (t'.moved p q).at? r = t.at? r) := by
  have hnone := hw.sound.without_none (hw.target_none hb)
  obtain ⟨⟨x, y, b, rfl, rfl, hne, -⟩, hp, hq⟩ := hb
  by_cases hr : y :: b <:+ r
  · obtain ⟨a, rfl⟩ := hr
    refine .inl ⟨a, rfl, ?_, ht.below_none hq (List.suffix_append _ _)⟩
    exact at?_moved_below (List.cons_ne_nil _ _) (List.cons_ne_nil _ _) hnone a
  · refine .inr ⟨hr, ?_⟩
    by_cases hbelow : x :: b <:+ r
    · rw [at?_moved_away hr hbelow (List.cons_ne_nil _ _), ht.below_none hp hbelow]
    · rw [at?_moved_other hnone hr hbelow, hw.at?_eq (List.cons_ne_nil _ _) hbelow]

theorem Within.moved_later (but : Place → Prop) : Later but t (t'.moved p q) := by
  have hcases := hw.moved_cases ht hb
  refine ⟨fun r e _ he => ?_, fun r hr => ?_, fun r hr => ?_, fun r bytes _ hfile hnone => ?_⟩
  · obtain ⟨a, -, -, hnone⟩ | ⟨-, hsame⟩ := hcases r
    · cases hnone.symm.trans he
    · rwa [hsame]
  · obtain ⟨a, -, -, hnone⟩ | ⟨-, hsame⟩ := hcases r
    · cases hnone.symm.trans hr
    · rwa [hsame]
  · obtain ⟨a, -, -, hnone⟩ | ⟨-, hsame⟩ := hcases r
    · exact hnone
    · rwa [← hsame]
  · obtain ⟨a, rfl, hmoved, -⟩ | ⟨-, hsame⟩ := hcases r
    · -- What is moved is a directory, so a file is below it.
      cases a with
      | nil =>
        rw [hfile] at hmoved
        exact absurd hmoved.symm (hw.directory bytes)
      | cons e a => exact ht.below_none hb.target (List.suffix_append a q)
    · rw [hfile, hnone] at hsame
      cases hsame

theorem Within.moved_sound : (t'.moved p q).Sound := by
  have hcases := hw.moved_cases ht hb
  intro e r hsome
  obtain ⟨a, heq, hmoved, -⟩ | ⟨hr, hsame⟩ := hcases (e :: r)
  · cases a with
    | nil =>
      -- The new place is in a directory that was there.
      obtain ⟨x, y, b, -, rfl, -, hdir⟩ := hb.apart
      cases heq
      exact (hw.moved_later ht hb fun _ => False).directory r hdir
    | cons e' a =>
      obtain ⟨rfl, rfl⟩ : e = e' ∧ r = a ++ q := List.cons.inj heq
      rw [hmoved] at hsome
      obtain ⟨a', heq', hmoved', -⟩ | ⟨hnot, -⟩ := hcases (a ++ q)
      · cases List.append_cancel_right heq'
        rw [hmoved']
        exact hw.sound e (a ++ p) hsome
      · exact absurd (List.suffix_append a q) hnot
  · rw [hsame] at hsome
    exact (hw.moved_later ht hb fun _ => False).directory r (ht e r hsome)

theorem Within.length_moved : t.entries.length ≤ (t'.moved p q).entries.length := by
  have hnone := hw.sound.without_none (hw.target_none hb)
  have hsame := hw.without_eq ht hb.source
  have hkept : (t'.without p).entries.length ≤ t'.entries.length := List.length_filter_le _ _
  rw [hsame] at hkept
  rwa [moved, hnone, List.length_map]

theorem Within.at?_target : (t'.moved p q).at? q = t'.at? p := by
  obtain ⟨a, heq, hmoved, -⟩ | ⟨hnot, -⟩ := hw.moved_cases ht hb q
  · obtain rfl : a = [] := List.self_eq_append_left.1 heq
    exact hmoved
  · exact absurd List.suffix_rfl hnot

end

/-- The directory is moved, unless there is none or the path is refused. -/
theorem Within.rename_cases (hw : Within p t t') (hold : t'.locate here old = .ok p)
    (hnew : ∀ r, t'.locate here new = .ok r → r = q ∧ t.Beside p q) :
    (∃ e, t'.rename here old new = (.error e, t') ∧ e.reason ≠ .present) ∨
      (t'.locate here new = .ok q ∧ t.Beside p q ∧ t'.at? p = some .directory ∧
        t'.rename here old new = (.ok (), t'.moved p q)) := by
  unfold rename
  cases hlocate : t'.locate here new with
  | error reason =>
    refine .inl ⟨⟨.rename, old ++ " " ++ new, reason⟩, by simp only [hold], ?_⟩
    rintro rfl
    exact locate_ne_present hlocate
  | ok r =>
    obtain ⟨rfl, hb⟩ := hnew r hlocate
    have htarget := hw.target_none hb
    obtain ⟨x, y, b, rfl, rfl, hne, -⟩ := hb.apart
    have hplaces : x :: b ≠ y :: b := by
      intro h
      cases h
      exact hne rfl
    have hsuffix : (x :: b).isSuffixOf (y :: b) = false := by
      rw [Bool.eq_false_iff]
      intro h
      exact not_suffix_of_beside hne (List.isSuffixOf_iff_suffix.1 h)
    cases hentry : t'.at? (x :: b) with
    | none =>
      exact .inl ⟨⟨.rename, old ++ " " ++ new, .missing⟩, by simp only [hold, hentry], nofun⟩
    | some entry =>
      cases entry with
      | file bytes => exact absurd hentry (hw.directory bytes)
      | directory =>
        refine .inr ⟨rfl, hb, rfl, ?_⟩
        simp only [hold, hentry, htarget, hplaces, if_false, hsuffix, Bool.false_eq_true]

/-! ## What is kept in a directory -/

/-- The path of a directory that is there, spelled as it is cleaned. -/
structure Leads (t : Tree) (here path : String) (b : Place) : Prop where
  path_ne : path ≠ ""
  clean : names path = cleanElements path
  follow : t.follow [] (route here path) = .ok b
  directory : t.at? b = some .directory

section

variable {path e : String} {b : Place} {u : Tree} (hleads : t.Leads here path b)
  (hlater : ∀ q, t.at? q = some .directory → u.at? q = some .directory) (he : Ordinary e)
include hleads hlater he

theorem Leads.locate_iff : u.locate here (join path e) = .ok r ↔
    (join path e).isEmpty = false ∧ (join path e).toList.any (·.toNat == 0) = false ∧
      (join path e).utf8ByteSize < pathLimit ∧ e.utf8ByteSize ≤ longestElement ∧ r = e :: b ∧
      ¬ ((∃ bytes, u.at? r = some (.file bytes)) ∧ (join path e).endsWith "/" = true) := by
  rw [locate_eq_ok_iff, route_append hleads.path_ne hleads.clean he, follow_append_eq_ok_iff]
  have hto := follow_congr hlater hleads.follow
  have hdir := hlater b hleads.directory
  constructor
  · rintro ⟨hempty, hzero, hlong, ⟨q, hq, hlast⟩, hend⟩
    cases hto.symm.trans hq
    obtain ⟨-, hshort, rfl⟩ := (follow_ordinary_eq_ok_iff he).1 hlast
    exact ⟨hempty, hzero, hlong, hshort, rfl, hend⟩
  · rintro ⟨hempty, hzero, hlong, hshort, rfl, hend⟩
    exact ⟨hempty, hzero, hlong, ⟨b, hto, (follow_ordinary_eq_ok_iff he).2 ⟨hdir, hshort, rfl⟩⟩, hend⟩

theorem Leads.locate_eq (h : u.locate here (join path e) = .ok r) : r = e :: b :=
  ((hleads.locate_iff hlater he).1 h).2.2.2.2.1

end

theorem Leads.locate_congr {path e : String} {b : Place} {u v : Tree} (hleads : t.Leads here path b)
    (hu : ∀ q, t.at? q = some .directory → u.at? q = some .directory)
    (hv : ∀ q, t.at? q = some .directory → v.at? q = some .directory) (he : Ordinary e)
    (hsame : ∀ bytes, v.at? (e :: b) = some (.file bytes) → u.at? (e :: b) = some (.file bytes))
    (h : u.locate here (join path e) = .ok r) : v.locate here (join path e) = .ok r := by
  obtain ⟨hempty, hzero, hlong, hshort, rfl, hend⟩ := (hleads.locate_iff hu he).1 h
  refine (hleads.locate_iff hv he).2 ⟨hempty, hzero, hlong, hshort, rfl, ?_⟩
  rintro ⟨⟨bytes, hfile⟩, hslash⟩
  exact hend ⟨⟨bytes, hsame bytes hfile⟩, hslash⟩

end Arbor.Files.Tree
