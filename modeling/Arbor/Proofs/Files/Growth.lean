import Arbor.Proofs.Files.Frames

/-!
What changes when directories are made.

`Tree.GrewAt` says that a tree differs from another one at most by directories at given places, where
nothing was before. Making a directory with all directories above it only does that, whether it
succeeds or not (`Tree.makeDirectories_grew`).
-/

set_option autoImplicit false

namespace Arbor.Files.Tree

variable {room room' : Place → Prop} {t t' t'' : Tree} {here path : String} {p q : Place}
  {es : List String}

/-- Nothing changed but that directories were made at some of the places, where nothing was. -/
def GrewAt (room : Place → Prop) (t t' : Tree) : Prop :=
  ∀ p, t'.at? p = t.at? p ∨ (t.at? p = none ∧ t'.at? p = some .directory ∧ room p)

theorem GrewAt.refl (room : Place → Prop) (t : Tree) : GrewAt room t t := fun _ => .inl rfl

theorem GrewAt.trans (h : GrewAt room t t') (h' : GrewAt room t' t'') : GrewAt room t t'' := by
  intro p
  obtain hsame | ⟨hnone, hdir, hroom⟩ := h p
  · rw [← hsame]
    exact h' p
  · obtain hsame' | ⟨hnone', -, -⟩ := h' p
    · exact .inr ⟨hnone, hsame'.trans hdir, hroom⟩
    · cases hdir.symm.trans hnone'

theorem GrewAt.imp (h : GrewAt room t t') (hroom : ∀ p, room p → room' p) : GrewAt room' t t' :=
  fun p => (h p).imp id fun ⟨hnone, hdir, hp⟩ => ⟨hnone, hdir, hroom p hp⟩

theorem GrewAt.file_iff (h : GrewAt room t t') (p : Place) (bytes : List UInt8) :
    t'.at? p = some (.file bytes) ↔ t.at? p = some (.file bytes) := by
  obtain hsame | ⟨hnone, hdir, -⟩ := h p
  · rw [hsame]
  · rw [hnone, hdir]
    constructor <;> nofun

theorem GrewAt.later (h : GrewAt room t t') (but : Place → Prop) : Later but t t' where
  stays := by
    intro p e _ he
    obtain hsame | ⟨hnone, -, -⟩ := h p
    · rwa [hsame]
    · cases hnone.symm.trans he
  directory := by
    intro p hp
    obtain hsame | ⟨-, hdir, -⟩ := h p
    · rwa [hsame]
    · exact hdir
  filled := by
    intro p hp
    obtain hsame | ⟨hnone, -, -⟩ := h p
    · rwa [← hsame]
    · exact hnone
  new := by
    intro p bytes _ hfile hnone
    rw [(h.file_iff p bytes).1 hfile] at hnone
    cases hnone

/-! ## One directory -/

theorem grewAt_set (hnone : t.at? p = none) (hroom : room p) :
    GrewAt room t (t.set p .directory) := by
  have hp : p ≠ [] := by
    rintro rfl
    cases hnone
  intro q
  rw [at?_set t hp]
  split
  next heq =>
    subst heq
    exact .inr ⟨hnone, rfl, hroom⟩
  next => exact .inl rfl

/-- Whatever is made, nothing that was there changes. -/
theorem makeEach_grows (here : String) (paths : List String) (t : Tree) :
    GrewAt (fun _ => True) t (makeEach here paths t).2 := by
  induction paths generalizing t with
  | nil => exact .refl _ t
  | cons path paths ih =>
    unfold makeEach
    split
    next => exact .refl _ t
    next =>
      split
      next => exact ih t
      next => exact .refl _ t
      next hnone => exact (grewAt_set hnone trivial).trans (ih _)

theorem Sound.set_directory {e : String} (ht : t.Sound) (hp : t.at? p = some .directory) :
    (t.set (e :: p) .directory).Sound := by
  have hset := fun q => t.at?_set (List.cons_ne_nil e p) .directory q
  intro x q hsome
  by_cases hq : q = e :: p
  · rw [hset, if_pos hq]
  · rw [hset, if_neg hq]
    by_cases hx : x :: q = e :: p
    · cases hx
      exact hp
    · rw [hset, if_neg hx] at hsome
      exact ht x q hsome

/-! ## All directories on a way -/

theorem foldl_walk_ordinary (hes : ∀ e ∈ es, Ordinary e) (up : List String) :
    es.foldl (walk true) up = es.reverse ++ up := by
  induction es generalizing up with
  | nil => rfl
  | cons e es ih =>
    obtain ⟨he, hes⟩ := List.forall_mem_cons.1 hes
    rw [List.foldl_cons, walk_ordinary _ _ he, ih hes]
    simp

/-- The places on the way down are made; those on the way up are there. -/
theorem makeEach_grew {start paths : List String} (ht : t.Sound) (hordinary : ∀ e ∈ p, Ordinary e)
    (hes : UpThenDown es) (hpaths : Spells here start paths es)
    (hfollow : t.follow [] start = .ok p) (hp : t.at? p = some .directory) :
    GrewAt (· <:+ es.foldl (walk true) p) t (makeEach here paths t).2 := by
  induction hpaths generalizing t p with
  | nil start => exact .refl _ t
  | @cons start paths rest path e hroute hrest ih =>
    cases hlocate : t.locate here path with
    | error r =>
      simp only [makeEach, hlocate]
      exact .refl _ t
    | ok r =>
      obtain ⟨-, -, -, hr, -⟩ := locate_eq_ok_iff.1 hlocate
      rw [hroute] at hr
      obtain ⟨p', hp', hstep⟩ := follow_append_eq_ok_iff.1 hr
      cases hfollow.symm.trans hp'
      have hes' : UpThenDown rest := UpThenDown.tail hes
      obtain ⟨rfl, -⟩ | hall := hes
      · -- One step up leads to a directory that is there.
        obtain ⟨-, rfl⟩ := follow_up_eq_ok_iff.1 hstep
        have hwalk : walk true p ".." = p.tail := by
          cases p with
          | nil => rfl
          | cons x p =>
            have hx : x ≠ ".." := (hordinary x List.mem_cons_self).not_up
            simp [walk, hx]
        have hdir : t.at? p.tail = some .directory := ht.above hp (List.tail_suffix p)
        simp only [makeEach, hlocate, hdir, List.foldl_cons, hwalk]
        exact ih ht (fun x hx => hordinary x (List.mem_of_mem_tail hx)) hes' hr hdir
      · obtain ⟨he, hdown⟩ := List.forall_mem_cons.1 hall
        obtain ⟨-, -, rfl⟩ := (follow_ordinary_eq_ok_iff he).1 hstep
        have hordinary' : ∀ x ∈ e :: p, Ordinary x := List.forall_mem_cons.2 ⟨he, hordinary⟩
        rw [List.foldl_cons, walk_ordinary _ _ he]
        cases hentry : t.at? (e :: p) with
        | some entry =>
          cases entry with
          | directory =>
            simp only [makeEach, hlocate, hentry]
            exact ih ht hordinary' hes' hr hentry
          | file bytes =>
            simp only [makeEach, hlocate, hentry]
            exact .refl _ t
        | none =>
          have hset : (t.set (e :: p) .directory).at? (e :: p) = some .directory := by
            rw [at?_set t (List.cons_ne_nil e p), if_pos rfl]
          have hkept : ∀ q, t.at? q = some .directory →
              (t.set (e :: p) .directory).at? q = some .directory := fun q hq => by
            rw [at?_set t (List.cons_ne_nil e p)]
            split
            · rfl
            · exact hq
          have hroom : e :: p <:+ rest.foldl (walk true) (e :: p) := by
            rw [foldl_walk_ordinary hdown]
            exact List.suffix_append _ _
          simp only [makeEach, hlocate, hentry]
          refine (grewAt_set hentry hroom).trans ?_
          exact ih (ht.set_directory hp) hordinary' hes' (follow_congr hkept hr) hset

theorem makeDirectories_grew {w : Place} (ht : t.Sound) (hw : ∀ e ∈ w, Ordinary e) (path : String) :
    GrewAt (· <:+ w.along path) t (t.makeDirectories w.path path).2 := by
  have hspells := spells_wayTo w.path path
  have hes : UpThenDown (cleanElements path) := by
    have := (cleanElements_tidy path).upThenDown
    rwa [List.reverse_reverse] at this
  -- The way starts at the top or in the directory, and the first step needs that to be there.
  have hgrew : ∀ start : Place, (∀ e ∈ start, Ordinary e) →
      Spells w.path start.reverse (wayTo path) (cleanElements path) →
      GrewAt (· <:+ (cleanElements path).foldl (walk true) start) t
        (t.makeDirectories w.path path).2 := by
    intro start hstart hspells
    unfold makeDirectories
    generalize wayTo path = paths at hspells
    generalize cleanElements path = es at hspells hes
    cases hspells with
    | nil => exact .refl _ t
    | @cons _ paths rest first e hfirst hrest =>
      cases hlocate : t.locate w.path first with
      | error r =>
        simp only [makeEach, hlocate]
        exact .refl _ t
      | ok r =>
        obtain ⟨-, -, -, hr, -⟩ := locate_eq_ok_iff.1 hlocate
        rw [hfirst] at hr
        obtain ⟨p, hp, hstep⟩ := follow_append_eq_ok_iff.1 hr
        have hplace : p = start := by
          have := follow_ordinary (fun x hx => hstart x (List.mem_reverse.1 hx)) hp
          rwa [List.reverse_reverse, List.append_nil] at this
        subst hplace
        exact makeEach_grew ht hstart hes (.cons hfirst hrest) hp (directory_of_follow hstep)
  unfold Place.along
  cases habs : isAbsolute path with
  | true =>
    rw [habs] at hspells
    exact hgrew [] (List.forall_mem_nil _) hspells
  | false =>
    have hnames : names w.path = w.reverse := names_path fun e he => (hw e he).plain
    rw [habs, if_neg Bool.false_ne_true, hnames] at hspells
    exact hgrew w hw hspells

end Arbor.Files.Tree
