import Arbor.Proofs.Files.Trees

/-!
What is still there later.

`Tree.Later` says that a tree came from another one by writing files at some places and by adding
directories with all that is in them. Paths that led somewhere else lead to the same things in both.
-/

set_option autoImplicit false

namespace Arbor.Files.Tree

variable {but but' : Place → Prop} {t t' t'' : Tree} {here path name : String} {p q : Place}
  {operation : Operation} {entry : Entry}

/-- What was there is still there, but for what files at some places hold, and other files are new
only in directories that are new. -/
structure Later (but : Place → Prop) (t t' : Tree) : Prop where
  stays : ∀ p e, ¬ but p → t.at? p = some e → t'.at? p = some e
  directory : ∀ p, t.at? p = some .directory → t'.at? p = some .directory
  filled : ∀ p, t'.at? p = none → t.at? p = none
  new : ∀ p bytes, ¬ but p → t'.at? p = some (.file bytes) → t.at? p = none → t.at? p.tail = none

theorem Later.refl (but : Place → Prop) (t : Tree) : Later but t t where
  stays := fun _ _ _ => id
  directory := fun _ => id
  filled := fun _ => id
  new := fun p bytes _ hfile hnone => by
    rw [hfile] at hnone
    cases hnone

theorem Later.trans (h : Later but t t') (h' : Later but t' t'') : Later but t t'' where
  stays := fun p e hp he => h'.stays p e hp (h.stays p e hp he)
  directory := fun p hp => h'.directory p (h.directory p hp)
  filled := fun p hp => h.filled p (h'.filled p hp)
  new := by
    intro p bytes hp hfile hnone
    cases hmid : t'.at? p with
    | none => exact h.filled _ (h'.new p bytes hp hfile hmid)
    | some entry =>
      cases entry with
      | file _ => exact h.new p _ hp hmid hnone
      | directory =>
        rw [h'.directory p hmid] at hfile
        cases hfile

theorem Later.imp (h : Later but t t') (hbut : ∀ p, but p → but' p) : Later but' t t' where
  stays := fun p e hp => h.stays p e fun hb => hp (hbut p hb)
  directory := h.directory
  filled := h.filled
  new := fun p bytes hp => h.new p bytes fun hb => hp (hbut p hb)

/-- Only a file of that name was written. -/
theorem later_set (hq : t.at? (name :: q) ≠ some .directory) (bytes : List UInt8) :
    Later (·.head? = some name) t (t.set (name :: q) (.file bytes)) := by
  have hset := fun p => t.at?_set (List.cons_ne_nil name q) (.file bytes) p
  have hother : ∀ p : Place, ¬ p.head? = some name →
      (t.set (name :: q) (.file bytes)).at? p = t.at? p := by
    intro p hp
    rw [hset, if_neg]
    rintro rfl
    exact hp rfl
  refine ⟨fun p e hp he => (hother p hp).trans he, fun p hp => ?_, fun p hp => ?_,
    fun p _ hp hfile hnone => ?_⟩
  · rw [hset, if_neg]
    · exact hp
    · rintro rfl
      exact hq hp
  · rw [hset] at hp
    split at hp
    next => cases hp
    next => exact hp
  · rw [hother p hp, hnone] at hfile
    cases hfile

theorem Sound.set_file (ht : t.Sound) (hq : t.at? q = some .directory)
    (hfile : t.at? (name :: q) ≠ some .directory) (bytes : List UInt8) :
    (t.set (name :: q) (.file bytes)).Sound := by
  have hlater := later_set hfile bytes
  intro e p hsome
  refine hlater.directory p ?_
  by_cases hp : e :: p = name :: q
  · cases hp
    exact hq
  · rw [at?_set t (List.cons_ne_nil _ _), if_neg hp] at hsome
    exact ht e p hsome

theorem length_set (t : Tree) (p : Place) (e : Entry) :
    t.entries.length ≤ (t.set p e).entries.length := by
  change t.entries.length ≤ (setEntry t.entries p e).length
  induction t.entries with
  | nil => exact Nat.zero_le _
  | cons x rest ih =>
    unfold setEntry
    split
    · exact Nat.le_refl _
    · exact Nat.succ_le_succ ih

/-! ## Paths that lead somewhere -/

theorem locate_last {e : String} {es : List String} (h : t.locate here path = .ok p)
    (hroute : route here path = es ++ [e]) (he : Ordinary e) :
    ∃ q, p = e :: q ∧ t.at? q = some .directory := by
  obtain ⟨-, -, -, hfollow, -⟩ := locate_eq_ok_iff.1 h
  rw [hroute] at hfollow
  obtain ⟨q, -, hlast⟩ := follow_append_eq_ok_iff.1 hfollow
  obtain ⟨hq, -, rfl⟩ := (follow_ordinary_eq_ok_iff he).1 hlast
  exact ⟨q, rfl, hq⟩

theorem Later.locate (h : Later but t t') (hp : t'.at? p = t.at? p)
    (hlocate : t.locate here path = .ok p) : t'.locate here path = .ok p := by
  obtain ⟨hempty, hzero, hlong, hfollow, hend⟩ := locate_eq_ok_iff.1 hlocate
  refine locate_eq_ok_iff.2 ⟨hempty, hzero, hlong, follow_congr h.directory hfollow, ?_⟩
  rwa [hp]

theorem Later.at_directory (h : Later but t t') (hp : t.at? p = some .directory) :
    t'.at? p = t.at? p := (h.directory p hp).trans hp.symm

theorem Later.look (h : Later but t t') (hlook : t.look operation here path = .ok entry)
    (hp : ∀ p, t.locate here path = .ok p → ¬ but p) :
    t'.look operation here path = .ok entry := by
  obtain ⟨p, hlocate, hentry⟩ := look_eq_ok_iff.1 hlook
  have hstays := h.stays p entry (hp p hlocate) hentry
  exact look_eq_ok_iff.2 ⟨p, h.locate (hstays.trans hentry.symm) hlocate, hstays⟩

theorem Later.look_directory (h : Later but t t')
    (hlook : t.look operation here path = .ok .directory) :
    t'.look operation here path = .ok .directory := by
  obtain ⟨p, hlocate, hentry⟩ := look_eq_ok_iff.1 hlook
  have hsame := h.at_directory hentry
  exact look_eq_ok_iff.2 ⟨p, h.locate hsame hlocate, hsame.trans hentry⟩

theorem look_written {e : String} {bytes : List UInt8} (hp : ∀ x ∈ e :: q, Ordinary x)
    (h : t.write here (Place.path (e :: q)) bytes = .ok t') :
    t' = t.set (e :: q) (.file bytes) ∧ t.at? (e :: q) ≠ some .directory ∧
      t.at? q = some .directory ∧
      ∀ operation, t'.look operation here (Place.path (e :: q)) = .ok (.file bytes) := by
  have he : Ordinary e := hp e List.mem_cons_self
  unfold write at h
  cases hlocate : t.locate here (Place.path (e :: q)) with
  | error r =>
    rw [hlocate] at h
    cases h
  | ok p =>
    obtain rfl := locate_path hp hlocate
    have hroute : route here (Place.path (e :: q)) = q.reverse ++ [e] := by
      rw [route_path here hp, List.reverse_cons]
    obtain ⟨q', hq', hdir⟩ := locate_last hlocate hroute he
    cases hq'
    rw [hlocate] at h
    simp only at h
    split at h
    next => cases h
    next hfile =>
      have hfile : t.at? (e :: q) ≠ some .directory := fun hd => hfile hd
      cases h
      refine ⟨rfl, hfile, hdir, fun operation => look_eq_ok_iff.2 ⟨e :: q, ?_, ?_⟩⟩
      · obtain ⟨hempty, hzero, hlong, hfollow, -⟩ := locate_eq_ok_iff.1 hlocate
        refine locate_eq_ok_iff.2 ⟨hempty, hzero, hlong, ?_, ?_⟩
        · exact follow_congr (later_set hfile bytes).directory hfollow
        · rintro ⟨-, hend⟩
          rw [endsWith_path he.plain] at hend
          cases hend
      · rw [at?_set t (List.cons_ne_nil _ _), if_pos rfl]

/-! ## Paths of places -/

theorem follow_agree {es : List String} (hes : ∀ e ∈ es, Ordinary e)
    (h : ∀ pre post, es = pre ++ post → post ≠ [] →
      t'.at? (pre.reverse ++ p) = t.at? (pre.reverse ++ p)) :
    t'.follow p es = t.follow p es := by
  induction es generalizing p with
  | nil => rfl
  | cons e es ih =>
    obtain ⟨he, hes⟩ := List.forall_mem_cons.1 hes
    have hp : t'.at? p = t.at? p := h [] (e :: es) rfl (List.cons_ne_nil _ _)
    have hrest : t'.follow (e :: p) es = t.follow (e :: p) es := by
      refine ih hes fun pre post hpre hpost => ?_
      have := h (e :: pre) post (by rw [hpre]; rfl) hpost
      simpa using this
    simp only [follow, hp, beq_eq_false_iff_ne.2 he.not_dot, beq_eq_false_iff_ne.2 he.not_up, hrest,
      Bool.false_eq_true, if_false]

/-- Where the path of a place leads to depends on the places above it. -/
theorem locate_agree {e : String} (hp : ∀ x ∈ e :: p, Ordinary x)
    (h : ∀ q, q <:+ p → t'.at? q = t.at? q) :
    t'.locate here (Place.path (e :: p)) = t.locate here (Place.path (e :: p)) := by
  have he : Ordinary e := hp e List.mem_cons_self
  have hroute := route_path here hp
  have hfollow : t'.follow [] (e :: p).reverse = t.follow [] (e :: p).reverse := by
    refine follow_agree (fun x hx => hp x (List.mem_reverse.1 hx)) fun pre post hpre hpost => ?_
    rw [List.append_nil]
    refine h _ ?_
    obtain ⟨front, last, rfl⟩ := (List.eq_nil_or_concat post).resolve_left hpost
    have hpre : e :: p = last :: (front.reverse ++ pre.reverse) := by
      have := congrArg List.reverse hpre
      simpa using this
    cases hpre
    exact List.suffix_append _ _
  have hends : (Place.path (e :: p)).endsWith "/" = false := endsWith_path he.plain
  unfold locate
  split
  · rfl
  · split
    · rfl
    · split
      · rfl
      · change (t'.follow [] (route here (Place.path (e :: p))) >>= fun q => _) =
          t.follow [] (route here (Place.path (e :: p))) >>= fun q => _
        rw [hroute, hfollow]
        refine bind_congr fun q => ?_
        -- The path has no slash at its end, so it does not matter what is there.
        simp only [hends, Bool.false_eq_true, if_false]
        split <;> split <;> rfl

theorem Sound.above (ht : t.Sound) (hp : t.at? p = some .directory) (h : q <:+ p) :
    t.at? q = some .directory := by
  obtain ⟨es, rfl⟩ := h
  induction es with
  | nil => exact hp
  | cons e es ih => exact ih (ht e (es ++ q) (by rw [← List.cons_append, hp]; rfl))

/-- In a directory that is there the same files are found later. -/
theorem Later.look_in_directory (h : Later but t t') (ht : t.Sound) {e : String}
    (hp : ∀ x ∈ e :: p, Ordinary x) (hdir : t.at? p = some .directory) (hbut : ¬ but (e :: p)) :
    t'.look operation here (Place.path (e :: p)) = t.look operation here (Place.path (e :: p)) ∨
      t.look operation here (Place.path (e :: p)) =
          .error ⟨operation, Place.path (e :: p), .missing⟩ ∧
        t'.look operation here (Place.path (e :: p)) = .ok .directory := by
  have hlocate : t'.locate here (Place.path (e :: p)) = t.locate here (Place.path (e :: p)) :=
    locate_agree hp fun q hq => h.at_directory (ht.above hdir hq)
  unfold Tree.look
  rw [hlocate]
  cases hq : t.locate here (Place.path (e :: p)) with
  | error r => exact .inl rfl
  | ok q =>
    obtain rfl := locate_path hp hq
    simp only
    cases hat : t.at? (e :: p) with
    | some entry =>
      rw [h.stays _ entry hbut hat]
      exact .inl rfl
    | none =>
      cases hat' : t'.at? (e :: p) with
      | none => exact .inl rfl
      | some entry =>
        cases entry with
        | directory => exact .inr ⟨rfl, rfl⟩
        | file bytes =>
          have hnone := h.new _ bytes hbut hat' hat
          cases hdir.symm.trans hnone

end Arbor.Files.Tree
