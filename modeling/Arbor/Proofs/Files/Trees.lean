import Arbor.Proofs.Files.Paths
import Mathlib.Data.List.Basic

/-!
Following paths in a tree of files.

In a sound tree everything lies in a directory. What following a path gives depends on the
directories alone (`Tree.follow_congr`), and making directories on the way to something that is there
changes nothing (`Tree.makeEach_found`).
-/

set_option autoImplicit false

namespace Arbor.Files

namespace Tree

/-- Everything lies in a directory. -/
def Sound (t : Tree) : Prop :=
  ∀ (e : String) (p : Place), (t.at? (e :: p)).isSome → t.at? p = some .directory

/-! ## Places -/

theorem lookup_setEntry (entries : List (Place × Entry)) (p q : Place) (e : Entry) :
    (setEntry entries p e).lookup q = if q = p then some e else entries.lookup q := by
  induction entries with
  | nil =>
    rw [setEntry, List.lookup_cons, List.lookup_nil]
    by_cases h : q = p
    · simp [h]
    · simp [beq_eq_false_iff_ne.2 h, h]
  | cons x rest ih =>
    obtain ⟨x, old⟩ := x
    rw [setEntry]
    by_cases hx : x = p
    · subst hx
      rw [if_pos (beq_self_eq_true x), List.lookup_cons, List.lookup_cons]
      by_cases h : q = x
      · simp [h]
      · simp [beq_eq_false_iff_ne.2 h, h]
    · rw [if_neg (by simpa using hx), List.lookup_cons, List.lookup_cons, ih]
      by_cases h : q = x
      · subst h
        simp [hx]
      · simp [beq_eq_false_iff_ne.2 h]

theorem at?_set (t : Tree) {p : Place} (hp : p ≠ []) (e : Entry) (q : Place) :
    (t.set p e).at? q = if q = p then some e else t.at? q := by
  cases q with
  | nil => simp [at?, hp.symm]
  | cons x q => exact lookup_setEntry t.entries p (x :: q) e

theorem mem_of_at? {t : Tree} {p : Place} {e : Entry} (hp : p ≠ []) (h : t.at? p = some e) :
    p ∈ t.entries.map Prod.fst := by
  cases p with
  | nil => exact absurd rfl hp
  | cons x p =>
    obtain ⟨a, b, hab, -⟩ := List.lookup_eq_some_iff.1 h
    rw [hab]
    simp

theorem sound_of_entries {t : Tree}
    (h : ∀ p ∈ t.entries.map Prod.fst, t.at? p.tail = some .directory) : t.Sound := by
  intro e p hsome
  obtain ⟨entry, hentry⟩ := Option.isSome_iff_exists.1 hsome
  exact h (e :: p) (mem_of_at? (List.cons_ne_nil e p) hentry)

/-! ## Following -/

/-- The elements a path is followed by. -/
def route (here path : String) : List String :=
  names (if isAbsolute path then path else here ++ "/" ++ path)

variable {t t' : Tree} {here path : String} {p q : Place} {es fs : List String}

theorem locate_eq_ok_iff : t.locate here path = .ok p ↔
    path.isEmpty = false ∧ path.toList.any (·.toNat == 0) = false ∧ path.utf8ByteSize < pathLimit ∧
      t.follow [] (route here path) = .ok p ∧
      ¬ ((∃ bytes, t.at? p = some (.file bytes)) ∧ path.endsWith "/" = true) := by
  unfold locate
  split
  next h => simp [h]
  next h =>
    split
    next hz => simp [hz]
    next hz =>
      split
      next hl =>
        refine ⟨nofun, fun ⟨_, _, hlt, _⟩ => ?_⟩
        omega
      next hl =>
        simp only [h, hz, Nat.not_le.1 hl, true_and]
        change (t.follow [] (route here path) >>= _) = _ ↔ _
        cases hf : t.follow [] (route here path) with
        | error r => simp [bind, Except.bind]
        | ok r =>
          simp only [bind, Except.bind, Except.ok.injEq]
          split
          next bytes hr =>
            split
            next hend =>
              refine ⟨nofun, ?_⟩
              rintro ⟨rfl, hno⟩
              exact absurd ⟨⟨bytes, hr⟩, hend⟩ hno
            next hend => simp [hend]
          next hr =>
            simp only [Except.ok.injEq, iff_self_and]
            rintro rfl ⟨⟨bytes, hbytes⟩, -⟩
            exact hr bytes hbytes

theorem follow_nil (t : Tree) (p : Place) : t.follow p [] = .ok p := rfl

theorem follow_cons (t : Tree) (p : Place) (e : String) (es : List String) :
    t.follow p (e :: es) =
      match t.at? p with
      | none => .error .missing
      | some (.file _) => .error .notDirectory
      | some .directory =>
        if e == "." then t.follow p es
        else if e == ".." then t.follow p.tail es
        else if e.utf8ByteSize > longestElement then .error .tooLong
        else t.follow (e :: p) es := rfl

theorem follow_append (t : Tree) (p : Place) (es fs : List String) :
    t.follow p (es ++ fs) = t.follow p es >>= fun q => t.follow q fs := by
  induction es generalizing p with
  | nil => rfl
  | cons e es ih =>
    rw [List.cons_append, follow_cons, follow_cons]
    split
    · rfl
    · rfl
    · split
      · exact ih p
      · split
        · exact ih p.tail
        · split
          · rfl
          · exact ih (e :: p)

theorem follow_append_eq_ok_iff : t.follow p (es ++ fs) = .ok q ↔
    ∃ r, t.follow p es = .ok r ∧ t.follow r fs = .ok q := by
  rw [follow_append]
  cases t.follow p es <;> simp [bind, Except.bind]

theorem follow_up_eq_ok_iff : t.follow p [".."] = .ok q ↔
    t.at? p = some .directory ∧ q = p.tail := by
  rw [follow_cons]
  cases h : t.at? p with
  | none => simp
  | some e => cases e <;> simp [follow_nil, eq_comm]

theorem follow_ordinary_eq_ok_iff {e : String} (he : Ordinary e) : t.follow p [e] = .ok q ↔
    t.at? p = some .directory ∧ e.utf8ByteSize ≤ longestElement ∧ q = e :: p := by
  simp only [follow_cons, follow_nil, beq_eq_false_iff_ne.2 he.not_dot,
    beq_eq_false_iff_ne.2 he.not_up]
  cases h : t.at? p with
  | none => simp
  | some entry =>
    cases entry with
    | file bytes => simp
    | directory =>
      simp only [Bool.false_eq_true, if_false]
      split
      next hlong =>
        refine ⟨nofun, fun ⟨_, hle, _⟩ => ?_⟩
        omega
      next hlong =>
        simp only [Except.ok.injEq, true_and]
        constructor
        · rintro rfl
          exact ⟨by omega, rfl⟩
        · rintro ⟨-, rfl⟩
          rfl

theorem directory_of_follow {e : String} (h : t.follow p (e :: es) = .ok q) :
    t.at? p = some .directory := by
  rw [follow_cons] at h
  split at h
  · cases h
  · cases h
  · assumption

theorem follow_ordinary (hes : ∀ e ∈ es, Ordinary e) (h : t.follow p es = .ok q) :
    q = es.reverse ++ p := by
  induction es generalizing p with
  | nil =>
    cases h
    rfl
  | cons e es ih =>
    obtain ⟨he, hes⟩ := List.forall_mem_cons.1 hes
    rw [← List.singleton_append, follow_append_eq_ok_iff] at h
    obtain ⟨r, hr, h⟩ := h
    obtain ⟨-, -, rfl⟩ := (follow_ordinary_eq_ok_iff he).1 hr
    rw [ih hes h]
    simp

/-- Following a path needs nothing but directories. -/
theorem follow_congr (hdir : ∀ p, t.at? p = some .directory → t'.at? p = some .directory)
    (h : t.follow p es = .ok q) : t'.follow p es = .ok q := by
  induction es generalizing p with
  | nil => exact h
  | cons e es ih =>
    rw [follow_cons] at h ⊢
    cases hp : t.at? p with
    | none =>
      rw [hp] at h
      cases h
    | some entry =>
      cases entry with
      | file bytes =>
        rw [hp] at h
        cases h
      | directory =>
        rw [hp] at h
        rw [hdir p hp]
        simp only at h ⊢
        split at h
        next hdot =>
          rw [if_pos hdot]
          exact ih h
        next hdot =>
          rw [if_neg hdot]
          split at h
          next hup =>
            rw [if_pos hup]
            exact ih h
          next hup =>
            rw [if_neg hup]
            split at h
            next => cases h
            next hlong =>
              rw [if_neg hlong]
              exact ih h

theorem look_eq_ok_iff {operation : Operation} {e : Entry} : t.look operation here path = .ok e ↔
    ∃ p, t.locate here path = .ok p ∧ t.at? p = some e := by
  unfold look
  cases t.locate here path with
  | error r => simp
  | ok p =>
    cases h : t.at? p with
    | none => simp [h]
    | some e' => simp [h]

theorem route_path (here : String) (hp : ∀ e ∈ p, Ordinary e) : route here p.path = p.reverse := by
  rw [route, if_pos (isAbsolute_path p), names_path fun e he => (hp e he).plain]

theorem locate_path (hp : ∀ e ∈ p, Ordinary e) (h : t.locate here p.path = .ok q) : q = p := by
  obtain ⟨-, -, -, hfollow, -⟩ := locate_eq_ok_iff.1 h
  rw [route_path here hp] at hfollow
  have hq := follow_ordinary (fun e he => hp e (List.mem_reverse.1 he)) hfollow
  rwa [List.reverse_reverse, List.append_nil] at hq

theorem at?_of_look {operation : Operation} {e : Entry} (hp : ∀ e ∈ p, Ordinary e)
    (h : t.look operation here p.path = .ok e) : t.at? p = some e := by
  obtain ⟨q, hq, he⟩ := look_eq_ok_iff.1 h
  rwa [← locate_path hp hq]

/-! ## Making directories -/

/-- Paths that spell out a route one element at a time. -/
inductive Spells (here : String) : List String → List String → List String → Prop where
  | nil (start : List String) : Spells here start [] []
  | cons {start paths rest : List String} {path e : String} :
      route here path = start ++ [e] → Spells here (start ++ [e]) paths rest →
      Spells here start (path :: paths) (e :: rest)

/-- The directories on the way are there. -/
def AllThere (t : Tree) (here : String) (paths : List String) : Prop :=
  ∀ path ∈ paths, ∃ p, t.locate here path = .ok p ∧ t.at? p = some .directory

theorem makeEach_of_allThere {paths : List String} (h : t.AllThere here paths) :
    makeEach here paths t = (.ok (), t) := by
  induction paths with
  | nil => rfl
  | cons path paths ih =>
    obtain ⟨⟨p, hp, hdir⟩, hrest⟩ := List.forall_mem_cons.1 h
    simp only [makeEach, hp, hdir]
    exact ih hrest

/-- Nothing lies below the place. -/
def Bare (t : Tree) (p : Place) : Prop := ∀ (e : String) (q : Place), t.at? (q ++ e :: p) = none

theorem Bare.down (h : t.Bare p) (e : String) : t.Bare (e :: p) := by
  intro e' q
  simpa using h e (q ++ [e'])

theorem Sound.bare (ht : t.Sound) (h : t.at? p = none) : t.Bare p := by
  have hup : ∀ q : Place, t.at? (q ++ p) = none := by
    intro q
    induction q with
    | nil => exact h
    | cons e q ih =>
      cases hat : t.at? (e :: q ++ p) with
      | none => rfl
      | some entry =>
        have hdir := ht e (q ++ p) (by rw [← List.cons_append, hat]; rfl)
        rw [ih] at hdir
        cases hdir
  intro e q
  simpa using hup (q ++ [e])

theorem set_bare {start : List String} {e : String}
    (hfollow : t.follow [] start = .ok p) (hstep : t.follow p [e] = .ok (e :: p))
    (hbare : t.Bare (e :: p)) :
    (t.set (e :: p) .directory).follow [] (start ++ [e]) = .ok (e :: p) ∧
      (t.set (e :: p) .directory).Bare (e :: p) := by
  have hset := fun q => t.at?_set (List.cons_ne_nil e p) .directory q
  have hdir : ∀ q, t.at? q = some .directory →
      (t.set (e :: p) .directory).at? q = some .directory := by
    intro q hq
    rw [hset]
    split
    · rfl
    · exact hq
  constructor
  · exact follow_append_eq_ok_iff.2 ⟨p, follow_congr hdir hfollow, follow_congr hdir hstep⟩
  · intro e' q
    have hne : q ++ e' :: e :: p ≠ e :: p := by
      intro heq
      have := congrArg List.length heq
      simp only [List.length_append, List.length_cons] at this
      omega
    rw [hset, if_neg hne]
    exact hbare e' q

/-- Below a directory with nothing in it each directory is new and has nothing in it. -/
theorem makeEach_bare {start paths : List String} (hes : ∀ e ∈ es, Ordinary e)
    (hpaths : Spells here start paths es) (hfollow : t.follow [] start = .ok p)
    (hbare : t.Bare p) (h : makeEach here paths t = (.ok (), t')) :
    t'.follow [] (start ++ es) = .ok (es.reverse ++ p) ∧ t'.Bare (es.reverse ++ p) := by
  induction hpaths generalizing t p with
  | nil start =>
    cases h
    simpa using ⟨hfollow, hbare⟩
  | @cons start paths rest path e hroute _ ih =>
    obtain ⟨he, hes⟩ := List.forall_mem_cons.1 hes
    simp only [makeEach] at h
    cases hlocate : t.locate here path with
    | error r => simp [hlocate] at h
    | ok q =>
      obtain ⟨-, -, -, hq, -⟩ := locate_eq_ok_iff.1 hlocate
      rw [hroute, follow_append_eq_ok_iff] at hq
      obtain ⟨p', hp', hstep⟩ := hq
      cases hfollow.symm.trans hp'
      obtain ⟨-, -, rfl⟩ := (follow_ordinary_eq_ok_iff he).1 hstep
      have hnone : t.at? (e :: p) = none := hbare e []
      simp only [hlocate, hnone] at h
      obtain ⟨hfollow', hbelow⟩ := set_bare hfollow hstep (hbare.down e)
      obtain ⟨hfinal, hbare'⟩ := ih hes hfollow' hbelow h
      rw [List.append_assoc, List.singleton_append] at hfinal
      simpa using ⟨hfinal, hbare'⟩

/-- Where the path goes on to something that is there, no directory was made. -/
theorem makeEach_found {start paths : List String} {last : String} (ht : t.Sound)
    (hes : UpThenDown es) (hpaths : Spells here start paths es)
    (hfollow : t.follow [] start = .ok p) (hp : t.at? p = some .directory)
    (h : makeEach here paths t = (.ok (), t')) (hlast : Ordinary last)
    (hend : t'.follow [] (start ++ es ++ [last]) = .ok q) (hq : (t'.at? q).isSome) :
    t' = t ∧ t.AllThere here paths := by
  induction hpaths generalizing p with
  | nil start =>
    cases h
    exact ⟨rfl, nofun⟩
  | @cons start paths rest path e hroute hrest ih =>
    simp only [makeEach] at h
    cases hlocate : t.locate here path with
    | error r => simp [hlocate] at h
    | ok r =>
      obtain ⟨-, -, -, hr, -⟩ := locate_eq_ok_iff.1 hlocate
      rw [hroute] at hr
      obtain ⟨p', hp', hstep⟩ := follow_append_eq_ok_iff.1 hr
      cases hfollow.symm.trans hp'
      have hend' : t'.follow [] (start ++ [e] ++ rest ++ [last]) = .ok q := by
        rw [← hend]
        simp
      -- A directory on the way up is there, because something lies in it.
      have hthere : t.at? r = some .directory → t' = t ∧ t.AllThere here (path :: paths) := by
        intro hdir
        simp only [hlocate, hdir] at h
        obtain ⟨hsame, hall⟩ := ih (UpThenDown.tail hes) hr hdir h hend'
        exact ⟨hsame, List.forall_mem_cons.2 ⟨⟨r, hlocate, hdir⟩, hall⟩⟩
      obtain ⟨rfl, -⟩ | hall := hes
      · obtain ⟨-, rfl⟩ := follow_up_eq_ok_iff.1 hstep
        apply hthere
        cases p with
        | nil => exact hp
        | cons x p => exact ht x p (by rw [hp]; rfl)
      · obtain ⟨he, hordinary⟩ := List.forall_mem_cons.1 hall
        obtain ⟨-, hshort, rfl⟩ := (follow_ordinary_eq_ok_iff he).1 hstep
        cases hentry : t.at? (e :: p) with
        | some entry =>
          cases entry with
          | directory => exact hthere hentry
          | file bytes => simp [hlocate, hentry] at h
        | none =>
          -- Here the first new directory is made, and at the end there is nothing in the last one.
          exfalso
          simp only [hlocate, hentry] at h
          obtain ⟨hfollow', hbelow⟩ := set_bare hfollow hstep (ht.bare hentry)
          obtain ⟨hfinal, hbare⟩ := makeEach_bare hordinary hrest hfollow' hbelow h
          obtain ⟨r, hr', hlast'⟩ := follow_append_eq_ok_iff.1 hend'
          cases hfinal.symm.trans hr'
          obtain ⟨-, -, rfl⟩ := (follow_ordinary_eq_ok_iff hlast).1 hlast'
          have hnone : t'.at? (last :: (rest.reverse ++ e :: p)) = none := hbare last []
          rw [hnone] at hq
          cases hq

/-- Paths that go on from one, each one element longer. -/
def onward (last : String) : List String → List String
  | [] => []
  | e :: es => (last ++ "/" ++ e) :: onward (last ++ "/" ++ e) es

theorem foldl_onward {step : List String → String → List String}
    (hstep : ∀ last done e, step (last :: done) e = (last ++ "/" ++ e) :: last :: done)
    (last : String) (done es : List String) :
    es.foldl step (last :: done) = (onward last es).reverse ++ last :: done := by
  induction es generalizing last done with
  | nil => rfl
  | cons e es ih => simp [onward, hstep, ih]

theorem route_slash {e : String} (hpath : path ≠ "") (he : Plain e) :
    route here (path ++ "/" ++ e) = route here path ++ [e] := by
  have habs : isAbsolute (path ++ "/" ++ e) = isAbsolute path := by
    rw [String.append_assoc, isAbsolute_append hpath]
  unfold route
  rw [habs]
  split
  · rw [names_slash, he.names]
  · rw [names_slash, names_slash, names_slash, he.names, List.append_assoc]

theorem spells_onward {last : String} (hlast : last ≠ "") (hes : ∀ e ∈ es, Plain e) :
    Spells here (route here last) (onward last es) es := by
  induction es generalizing last with
  | nil => exact .nil _
  | cons e es ih =>
    obtain ⟨he, hes⟩ := List.forall_mem_cons.1 hes
    have hroute : route here (last ++ "/" ++ e) = route here last ++ [e] := route_slash hlast he
    have hne : last ++ "/" ++ e ≠ "" := by simp
    exact .cons hroute (hroute ▸ ih hne hes)

theorem spells_wayTo (here path : String) :
    Spells here (if isAbsolute path then [] else names here) (wayTo path) (cleanElements path) := by
  have hplain := cleanElements_plain path
  unfold wayTo
  cases hes : cleanElements path with
  | nil => exact .nil _
  | cons e es =>
    rw [hes] at hplain
    obtain ⟨he, hplain⟩ := List.forall_mem_cons.1 hplain
    simp only [List.foldl_cons]
    rw [foldl_onward fun _ _ _ => rfl]
    simp only [List.reverse_append, List.reverse_reverse, List.reverse_cons, List.reverse_nil,
      List.nil_append, List.singleton_append]
    cases habs : isAbsolute path with
    | true =>
      have hroute : route here ("/" ++ e) = [] ++ [e] := by
        rw [route, if_pos (isAbsolute_top e), names_top, he.names, List.nil_append]
      exact .cons hroute (hroute ▸ spells_onward (by simp) hplain)
    | false =>
      have hroute : route here ("" ++ e) = names here ++ [e] := by
        rw [String.empty_append, route, if_neg (by simp [he.not_absolute]), names_slash, he.names]
      exact .cons hroute (hroute ▸ spells_onward (by simpa using he.1) hplain)

theorem route_join {e : String} (hpath : path ≠ "") (he : Ordinary e) : route here (join path e) =
    (if isAbsolute path then [] else names here) ++ cleanElements path ++ [e] := by
  unfold route
  rw [isAbsolute_join hpath]
  split
  · rw [names_join hpath he, List.nil_append]
  · rw [names_slash, names_join hpath he, List.append_assoc]

theorem route_append {e : String} (hpath : path ≠ "") (hclean : names path = cleanElements path)
    (he : Ordinary e) : route here (join path e) = route here path ++ [e] := by
  rw [route_join hpath he, route]
  split
  · rw [hclean, List.nil_append]
  · rw [names_slash, hclean]

theorem intercalate_front (a e : String) (es : List String) :
    String.intercalate "/" ((a ++ e) :: es) = a ++ String.intercalate "/" (e :: es) := by
  cases es with
  | nil => rw [String.intercalate_singleton, String.intercalate_singleton]
  | cons x es => simp only [String.intercalate_cons_cons, String.append_assoc]

theorem intercalate_begins (e : String) (es : List String) :
    ∃ c, String.intercalate "/" (e :: es) = e ++ c :=
  ⟨_, by rw [← intercalate_front, String.append_empty]⟩

theorem onward_begins {last : String} (h : path ∈ onward last es)
    (fs : List String) :
    path ≠ "" ∧ ∃ c, String.intercalate "/" (last :: (es ++ fs)) = path ++ c := by
  induction es generalizing last with
  | nil => cases h
  | cons e es ih =>
    obtain rfl | h := List.mem_cons.1 h
    · obtain ⟨c, hc⟩ := intercalate_begins (last ++ "/" ++ e) (es ++ fs)
      refine ⟨by simp, c, ?_⟩
      rw [← hc, intercalate_front, List.cons_append, String.intercalate_cons_cons]
    · obtain ⟨hpath, c, hc⟩ := ih h
      refine ⟨hpath, c, ?_⟩
      rw [← hc, intercalate_front, List.cons_append, String.intercalate_cons_cons]

theorem wayTo_begins {p e : String} (hpath : path ≠ "") (he : Ordinary e) (h : p ∈ wayTo path) :
    p ≠ "" ∧ ∃ c, join path e = p ++ c := by
  have hclean := cleanElements_slash hpath he
  have hjoin : join path e = (if isAbsolute path then "/" else "") ++
      String.intercalate "/" (cleanElements path ++ [e]) := by
    have habs : isAbsolute (path ++ "/" ++ e) = isAbsolute path := by
      rw [String.append_assoc, isAbsolute_append hpath]
    rw [join_eq hpath, ← hclean]
    cases hab : isAbsolute path with
    | true => rw [clean_absolute (habs.trans hab), Place.path, List.reverse_reverse, if_pos rfl]
    | false =>
      rw [clean_relative (habs.trans hab) (by simp [hclean]), if_neg Bool.false_ne_true,
        String.empty_append]
  rw [hjoin]
  unfold wayTo at h
  have hplain := cleanElements_plain path
  cases hes : cleanElements path with
  | nil => simp [hes] at h
  | cons x xs =>
    rw [hes] at h hplain
    simp only [List.foldl_cons] at h
    rw [foldl_onward fun _ _ _ => rfl] at h
    have hx : x ≠ "" := (hplain x List.mem_cons_self).1
    rw [List.cons_append, ← intercalate_front]
    obtain rfl | h : p = (if isAbsolute path then "/" else "") ++ x ∨
        p ∈ onward ((if isAbsolute path then "/" else "") ++ x) xs := by
      simpa using h
    · exact ⟨by simp [hx], intercalate_begins _ _⟩
    · exact onward_begins h [e]

theorem allThere_of_spells {start paths : List String} {whole last : String}
    (hpaths : Spells here start paths es) (hwhole : t.locate here whole = .ok q)
    (hbegins : ∀ p ∈ paths, p ≠ "" ∧ ∃ c, whole = p ++ c)
    (hfollow : t.follow [] (start ++ es ++ [last]) = .ok q) : t.AllThere here paths := by
  obtain ⟨-, hzero, hlong, -, -⟩ := locate_eq_ok_iff.1 hwhole
  induction hpaths with
  | nil => exact nofun
  | @cons start paths rest path e hroute _ ih =>
    obtain ⟨⟨hne, c, rfl⟩, hbegins⟩ := List.forall_mem_cons.1 hbegins
    have hsplit : start ++ e :: rest ++ [last] = (start ++ [e]) ++ (rest ++ [last]) := by simp
    rw [hsplit, follow_append_eq_ok_iff] at hfollow
    obtain ⟨p, hp, hrest⟩ := hfollow
    have hdir : t.at? p = some .directory := by
      cases rest with
      | nil => exact directory_of_follow hrest
      | cons x rest => exact directory_of_follow hrest
    refine List.forall_mem_cons.2 ⟨⟨p, ?_, hdir⟩, ih hbegins ?_⟩
    · refine locate_eq_ok_iff.2 ⟨by simpa using hne, ?_, ?_, hroute ▸ hp, ?_⟩
      · rw [String.toList_append, List.any_append, Bool.or_eq_false_iff] at hzero
        exact hzero.1
      · rw [String.utf8ByteSize_append] at hlong
        omega
      · rintro ⟨⟨bytes, hbytes⟩, -⟩
        rw [hdir] at hbytes
        cases hbytes
    · rw [List.append_assoc]
      exact follow_append_eq_ok_iff.2 ⟨p, hp, hrest⟩

/-- Where a path goes on to something that is there, the directories on the way are there. -/
theorem allThere_of_look {e : String} {operation : Operation} {entry : Entry} (hpath : path ≠ "")
    (he : Ordinary e) (h : t.look operation here (join path e) = .ok entry) :
    t.AllThere here (wayTo path) := by
  obtain ⟨q, hq, -⟩ := look_eq_ok_iff.1 h
  obtain ⟨-, -, -, hfollow, -⟩ := locate_eq_ok_iff.1 hq
  rw [route_join hpath he] at hfollow
  exact allThere_of_spells (spells_wayTo here path) hq (fun p hp => wayTo_begins hpath he hp) hfollow

/-- If after making a directory there is something in it, the directory was there before. -/
theorem makeDirectories_found {e : String} {operation : Operation} {entry : Entry}
    (ht : t.Sound) (hpath : path ≠ "") (hclean : cleanElements path ≠ []) (he : Ordinary e)
    (h : t.makeDirectories here path = (.ok (), t'))
    (hlook : t'.look operation here (join path e) = .ok entry) :
    t' = t ∧ t.AllThere here (wayTo path) := by
  obtain ⟨q, hq, hentry⟩ := look_eq_ok_iff.1 hlook
  obtain ⟨-, -, -, hend, -⟩ := locate_eq_ok_iff.1 hq
  have hspells := spells_wayTo here path
  have hroute : route here (join path e) = _ := route_join hpath he
  generalize (if isAbsolute path then [] else names here) = start at hspells hroute
  have hes : UpThenDown (cleanElements path) := by
    have := (cleanElements_tidy path).upThenDown
    rwa [List.reverse_reverse] at this
  -- Even the first directory is made below one that is there.
  obtain ⟨p, hfollow, hp⟩ : ∃ p, t.follow [] start = .ok p ∧ t.at? p = some .directory := by
    unfold makeDirectories at h
    generalize wayTo path = paths at hspells h
    generalize cleanElements path = es at hspells hclean
    cases hspells with
    | nil => exact absurd rfl hclean
    | @cons _ paths rest first e' hfirst _ =>
      simp only [makeEach] at h
      cases hlocate : t.locate here first with
      | error r => simp [hlocate] at h
      | ok r =>
        obtain ⟨-, -, -, hr, -⟩ := locate_eq_ok_iff.1 hlocate
        rw [hfirst] at hr
        obtain ⟨p, hp, hstep⟩ := follow_append_eq_ok_iff.1 hr
        exact ⟨p, hp, directory_of_follow hstep⟩
  rw [hroute] at hend
  exact makeEach_found ht hes hspells hfollow hp h he hend (by rw [hentry]; rfl)

end Tree

end Arbor.Files
