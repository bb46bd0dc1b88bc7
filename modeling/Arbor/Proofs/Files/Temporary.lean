import Arbor.Proofs.Files.Growth

/-!
Directories that are made and taken away again.

A temporary directory is made where nothing was, so nothing was below it either
(`Tree.Sound.bare`). Whatever is written into it is gone with it, and the tree is what it was
(`Tree.at?_removed`).
-/

set_option autoImplicit false

namespace Arbor.Files.Tree

variable {t t' : Tree} {here path start : String} {p q : Place}

/-! ## New places -/

/-- Where there is nothing at the end of a path, it ends right below a directory. -/
theorem above_of_locate (ht : t.Sound) (h : t.locate here path = .ok p) (hp : t.at? p = none) :
    ∃ e q, p = e :: q ∧ t.at? q = some .directory := by
  obtain ⟨-, -, -, hfollow, -⟩ := locate_eq_ok_iff.1 h
  have hfilled : ∀ e ∈ route here path, e ≠ "" := by
    intro e he
    have := (List.mem_filter.1 he).2
    simpa using this
  obtain hnil | ⟨es, e, hroute⟩ := List.eq_nil_or_concat (route here path)
  · rw [hnil] at hfollow
    cases hfollow
    cases hp
  · rw [hroute, List.concat_eq_append] at hfollow
    obtain ⟨q, -, hstep⟩ := follow_append_eq_ok_iff.1 hfollow
    have hq : t.at? q = some .directory := directory_of_follow hstep
    simp only [follow, hq] at hstep
    split at hstep
    next =>
      cases hstep
      rw [hq] at hp
      cases hp
    next =>
      split at hstep
      next =>
        cases hstep
        rw [ht.above hq (List.tail_suffix q)] at hp
        cases hp
      next =>
        split at hstep
        next => cases hstep
        next =>
          cases hstep
          exact ⟨e, q, rfl, hq⟩

theorem Sound.set_new (ht : t.Sound) (h : t.locate here path = .ok p) (hp : t.at? p = none) :
    (t.set p .directory).Sound := by
  obtain ⟨e, q, rfl, hq⟩ := above_of_locate ht h hp
  exact ht.set_directory hq

theorem Sound.makeEach {paths : List String} (ht : t.Sound) : (makeEach here paths t).2.Sound := by
  induction paths generalizing t with
  | nil => exact ht
  | cons path paths ih =>
    unfold Tree.makeEach
    split
    next => exact ht
    next p hlocate =>
      split
      next => exact ih ht
      next => exact ht
      next hnone => exact ih (ht.set_new hlocate hnone)

theorem length_makeEach (here : String) (paths : List String) (t : Tree) :
    t.entries.length ≤ (makeEach here paths t).2.entries.length := by
  induction paths generalizing t with
  | nil => exact Nat.le_refl _
  | cons path paths ih =>
    unfold Tree.makeEach
    split
    next => exact Nat.le_refl _
    next =>
      split
      next => exact ih t
      next => exact Nat.le_refl _
      next => exact Nat.le_trans (length_set ..) (ih _)

theorem Sound.makeDirectories (ht : t.Sound) : (t.makeDirectories here path).2.Sound := ht.makeEach

/-! ## Taking away -/

theorem lookup_filter_keys {α β : Type} [BEq α] [LawfulBEq α] (keep : α → Bool)
    (entries : List (α × β)) (a : α) :
    (entries.filter fun x => keep x.1).lookup a = if keep a then entries.lookup a else none := by
  induction entries with
  | nil => simp
  | cons x rest ih =>
    obtain ⟨b, e⟩ := x
    rw [List.filter_cons]
    by_cases hb : a = b
    · subst hb
      by_cases hk : keep a = true
      · simp [hk]
      · simpa [hk, List.lookup_cons] using ih
    · have hne : (a == b) = false := beq_eq_false_iff_ne.2 hb
      by_cases hk : keep b = true
      · simp only [hk, if_true, List.lookup_cons, hne, ih]
      · simp only [hk, Bool.false_eq_true, if_false, List.lookup_cons, hne, ih]

theorem at?_without (hp : p ≠ []) (q : Place) :
    (t.without p).at? q = if p <:+ q then none else t.at? q := by
  cases q with
  | nil =>
    rw [if_neg fun h => hp (List.suffix_nil.1 h)]
    rfl
  | cons e q =>
    have hlookup := lookup_filter_keys (fun r => !p.isSuffixOf r) t.entries (e :: q)
    refine Eq.trans hlookup ?_
    by_cases h : p.isSuffixOf (e :: q) = true
    · rw [if_pos (List.isSuffixOf_iff_suffix.1 h), h]
      rfl
    · rw [if_neg fun hs => h (List.isSuffixOf_iff_suffix.2 hs), Bool.eq_false_iff.2 h]
      rfl

theorem filter_setEntry (keep : Place → Bool) {p : Place} (hp : keep p = false) (e : Entry)
    (entries : List (Place × Entry)) :
    (setEntry entries p e).filter (fun x => keep x.1) = entries.filter fun x => keep x.1 := by
  induction entries with
  | nil => simp [setEntry, hp]
  | cons x rest ih =>
    obtain ⟨r, old⟩ := x
    unfold setEntry
    by_cases hr : r = p
    · subst hr
      simp [hp]
    · simp [hr, List.filter_cons, ih]

theorem Sound.below_none (ht : t.Sound) (hp : t.at? p = none) (hq : p <:+ q) : t.at? q = none := by
  obtain ⟨es, rfl⟩ := hq
  obtain rfl | ⟨es, e, rfl⟩ := List.eq_nil_or_concat es
  · exact hp
  · have := ht.bare hp e es
    simpa using this

theorem Sound.without_none (ht : t.Sound) (hp : t.at? p = none) : t.without p = t := by
  have hkeep : ∀ x ∈ t.entries, (!p.isSuffixOf x.1) = true := by
    intro x hx
    cases hs : p.isSuffixOf x.1 with
    | false => rfl
    | true =>
      have hnone := ht.below_none hp (List.isSuffixOf_iff_suffix.1 hs)
      obtain ⟨r, old⟩ := x
      cases r with
      | nil => cases hnone
      | cons a r =>
        have hlisted := List.lookup_eq_none_iff.1 hnone _ hx
        simp at hlisted
  exact congrArg Tree.mk (List.filter_eq_self.2 hkeep)

theorem Sound.set_without (ht : t.Sound) (hp : t.at? p = none) (e : Entry) :
    (t.set p e).without p = t := by
  have hself : (!p.isSuffixOf p) = false := by simp
  have hfilter := filter_setEntry (fun r => !p.isSuffixOf r) hself e t.entries
  exact (congrArg Tree.mk hfilter).trans (ht.without_none hp)

/-! ## Temporary directories -/

theorem number_ordinary {start : String} (hstart : start ≠ "") (hslash : '/' ∉ start.toList)
    (hdot : '.' ∉ start.toList) (n : Nat) : Ordinary (start ++ toString n) := by
  have hdigits : (toString n).toList = Nat.toDigits 10 n := Nat.toList_repr
  have hdigit : ∀ c ∈ (toString n).toList, c.isDigit = true := fun c hc =>
    Nat.isDigit_of_mem_toDigits (by decide) (by decide) (hdigits ▸ hc)
  have hchars : ∀ c : Char, c ∉ start.toList → c.isDigit = false → c ∉ (start ++ toString n).toList := by
    intro c hc hnot hmem
    rw [String.toList_append] at hmem
    obtain h | h := List.mem_append.1 hmem
    · exact hc h
    · rw [hdigit c h] at hnot
      cases hnot
  refine ⟨⟨by simp [hstart], hchars '/' hslash (by decide)⟩, fun h => ?_, fun h => ?_⟩
  all_goals
    refine hchars '.' hdot (by decide) ?_
    rw [h]
    decide

/-- A temporary directory is made where nothing was, or nothing is made. -/
theorem makeTemporary_cases {random : Nat → UInt32} {tries : Nat} {r : Except Error String}
    (h : t.makeTemporary here start random tries = (r, t')) :
    (∃ e, r = .error e ∧ t' = t) ∨ ∃ (n : Nat) (p : Place), r = .ok (start ++ toString n) ∧
      t.locate here (start ++ toString n) = .ok p ∧ t.at? p = none ∧ t' = t.set p .directory := by
  induction tries with
  | zero =>
    cases h
    exact .inl ⟨_, rfl, rfl⟩
  | succ tries ih =>
    simp only [makeTemporary, makeDirectory] at h
    cases hlocate : t.locate here (start ++ toString (random tries).toNat) with
    | error reason =>
      simp only [hlocate] at h
      split at h
      next => exact ih h
      next =>
        cases h
        exact .inl ⟨_, rfl, rfl⟩
    | ok p =>
      cases hentry : t.at? p with
      | some entry =>
        simp only [hlocate, hentry, if_true] at h
        exact ih h
      | none =>
        simp only [hlocate, hentry] at h
        cases h
        exact .inr ⟨_, p, rfl, hlocate, hentry, rfl⟩

/-- The path to a new place is still followed after something was done there. -/
theorem locate_of_outside (ht : t.Sound) (h : t.locate here path = .ok p) (hp : t.at? p = none)
    (hend : path.endsWith "/" = false) (hout : ∀ q, ¬ p <:+ q → t'.at? q = t.at? q) :
    t'.locate here path = .ok p := by
  obtain ⟨hempty, hzero, hlong, hfollow, -⟩ := locate_eq_ok_iff.1 h
  have hdir : ∀ q, t.at? q = some .directory → t'.at? q = some .directory := by
    intro q hq
    rw [hout q, hq]
    intro hbelow
    rw [ht.below_none hp hbelow] at hq
    cases hq
  refine locate_eq_ok_iff.2 ⟨hempty, hzero, hlong, follow_congr hdir hfollow, ?_⟩
  rintro ⟨-, hslash⟩
  rw [hend] at hslash
  cases hslash

theorem removeAll_outside (ht : t.Sound) (h : t.locate here path = .ok p) (hp : t.at? p = none)
    (hend : path.endsWith "/" = false) (hout : ∀ q, ¬ p <:+ q → t'.at? q = t.at? q) :
    t'.removeAll here path = (.ok (), t'.without p) := by
  unfold removeAll
  rw [locate_of_outside ht h hp hend hout]

/-- What was written below a new place is gone when that is taken away. -/
theorem at?_removed (ht : t.Sound) (hp : t.at? p = none)
    (hout : ∀ q, ¬ p <:+ q → t'.at? q = t.at? q) (q : Place) : (t'.without p).at? q = t.at? q := by
  have hne : p ≠ [] := by
    rintro rfl
    cases hp
  rw [at?_without hne]
  split
  next hbelow => exact (ht.below_none hp hbelow).symm
  next habove => exact hout q habove

end Arbor.Files.Tree
