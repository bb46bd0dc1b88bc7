import Arbor.Package.Lockfile.File
import Arbor.Proofs.Package.Loading
import Mathlib.Data.List.DropRight

/-!
Looking names up in lockfiles.

Bringing names and texts into their written form changes nothing the second time. So a lockfile whose
packages are in that form (`Lockfile.Settled`) answers alike before and after it is written, and what
was put under a name is found under every name with the same written form (`Lockfile.find?_put`).
-/

set_option autoImplicit false

namespace Arbor

/-! ## Written forms -/

namespace Text

theorem dropWhile_of_prefix {α : Type} {p : α → Bool} {l xs : List α} (h : l <+: xs.dropWhile p) :
    l.dropWhile p = l := by
  cases l with
  | nil => rfl
  | cons c l =>
    obtain ⟨rest, hrest⟩ := h
    have hc := List.head?_dropWhile_not p xs
    rw [← hrest] at hc
    simpa using hc

theorem trimChars_eq (cs : List Char) :
    trimChars cs = (cs.dropWhile isBlank).rdropWhile isBlank := rfl

theorem trimChars_trimChars (cs : List Char) : trimChars (trimChars cs) = trimChars cs := by
  rw [trimChars_eq, trimChars_eq, dropWhile_of_prefix (List.rdropWhile_prefix ..),
    List.rdropWhile_idempotent]

theorem trim_trim (s : String) : trim (trim s) = trim s := by
  simp [trim, trimChars_trimChars]

theorem trimChars_of_ends {cs : List Char} (hfirst : ∀ c ∈ cs.head?, isBlank c = false)
    (hlast : ∀ c ∈ cs.getLast?, isBlank c = false) : trimChars cs = cs := by
  have hdrop : cs.dropWhile isBlank = cs := by
    cases cs with
    | nil => rfl
    | cons c cs => simp [hfirst c rfl]
  rw [trimChars_eq, hdrop]
  refine List.rdropWhile_eq_self_iff.2 fun hne => ?_
  simp [hlast _ (List.getLast?_eq_some_getLast hne)]

theorem trimChars_of_not_blank {cs : List Char} (h : ∀ c ∈ cs, isBlank c = false) :
    trimChars cs = cs :=
  trimChars_of_ends (fun c hc => h c (List.mem_of_head? hc)) fun c hc =>
    h c (List.mem_of_getLast? hc)

theorem isBlank_of_visible {c : Char} (hlow : 0x20 < c.toNat) (hhigh : c.toNat < 0x85) :
    isBlank c = false := by
  simp only [isBlank, Bool.or_eq_false_iff, Bool.and_eq_false_iff, decide_eq_false_iff_not,
    beq_eq_false_iff_ne]
  omega

theorem toNat_of_segmentChar {c : Char} (h : isSegmentChar c = true) :
    (97 ≤ c.toNat ∧ c.toNat ≤ 122) ∨ (48 ≤ c.toNat ∧ c.toNat ≤ 57) ∨ c.toNat = 95 := by
  have hlower : c.isLower = (decide (97 ≤ c.toNat) && decide (c.toNat ≤ 122)) := rfl
  simp only [isSegmentChar, hlower, Char.isDigit, Bool.or_eq_true, Bool.and_eq_true,
    decide_eq_true_eq, beq_iff_eq] at h
  obtain (⟨h₁, h₂⟩ | ⟨h₁, h₂⟩) | rfl := h
  · exact .inl ⟨h₁, h₂⟩
  · exact .inr (.inl ⟨h₁, h₂⟩)
  · exact .inr (.inr rfl)

theorem lowerChar_of_segmentChar {c : Char} (h : isSegmentChar c = true) : lowerChar c = c := by
  have hc := toNat_of_segmentChar h
  have hupper : ¬ (c.val ≥ 'A'.val ∧ c.val ≤ 'Z'.val) := by
    rintro ⟨hlow, hhigh⟩
    have hlow : 65 ≤ c.toNat := hlow
    have hhigh : c.toNat ≤ 90 := hhigh
    omega
  rw [lowerChar, if_neg (by omega), if_neg (by omega)]
  exact dif_neg hupper

end Text

namespace Package

theorem packageName_packageName (s : String) : packageName (packageName s) = packageName s := by
  have hsegment := packageName_segment s
  have htrim : Text.trimChars (packageName s).toList = (packageName s).toList := by
    refine Text.trimChars_of_not_blank fun c hc => ?_
    have := Text.toNat_of_segmentChar (hsegment c hc)
    exact Text.isBlank_of_visible (by omega) (by omega)
  have hmap : Text.segment (packageName s).toList = (packageName s).toList := by
    refine (List.map_congr_left fun c hc => ?_).trans (List.map_id _)
    have hc := hsegment c hc
    simp only [Text.lowerChar_of_segmentChar hc, hc, if_true, id_eq]
  rw [packageName, htrim, hmap, String.ofList_toList]

theorem not_blank_of_isHash {s : String} (h : isHash s = true) :
    ∀ c ∈ s.toList, Text.isBlank c = false := by
  simp only [isHash, Bool.and_eq_true, List.all_eq_true] at h
  intro c hc
  have hrange : 48 ≤ c.toNat ∧ c.toNat ≤ 102 := by
    have hc := h.2 c hc
    simp only [Char.isDigit, Bool.or_eq_true, Bool.and_eq_true, decide_eq_true_eq] at hc
    obtain (⟨hlow, hhigh⟩ | ⟨hlow, hhigh⟩) | ⟨hlow, hhigh⟩ := hc
    · have hlow : 48 ≤ c.toNat := hlow
      have hhigh : c.toNat ≤ 57 := hhigh
      omega
    · have hlow : 97 ≤ c.toNat := hlow
      have hhigh : c.toNat ≤ 102 := hhigh
      omega
    · have hlow : 65 ≤ c.toNat := hlow
      have hhigh : c.toNat ≤ 70 := hhigh
      omega
  exact Text.isBlank_of_visible (by omega) (by omega)

theorem trim_of_isHash {s : String} (h : isHash s = true) : Text.trim s = s := by
  rw [Text.trim, Text.trimChars_of_not_blank (not_blank_of_isHash h), String.ofList_toList]

/-- The source of a checkout has no white space at its ends. -/
theorem trim_sourceOf {commit : String} (h : isHash commit = true) (url : String) :
    Text.trim (Checkout.sourceOf url commit) = Checkout.sourceOf url commit := by
  have hchars : (Checkout.sourceOf url commit).toList =
      'g' :: ("it+".toList ++ (Text.trim url).toList ++ "@".toList) ++ commit.toList := by
    simp [Checkout.sourceOf, String.toList_append]
  have htrim : Text.trimChars (Checkout.sourceOf url commit).toList =
      (Checkout.sourceOf url commit).toList := by
    refine Text.trimChars_of_ends (fun c hc => ?_) fun c hc => ?_
    · rw [hchars] at hc
      cases hc
      decide
    · have hne : commit.toList ≠ [] := by
        intro hnil
        simp [isHash, hnil] at h
      rw [hchars, List.getLast?_append_of_ne_nil _ hne] at hc
      exact not_blank_of_isHash h c (List.mem_of_getLast? hc)
  rw [Text.trim, htrim, String.ofList_toList]

@[simp] theorem Locked.normalize_normalize (p : Locked) : p.normalize.normalize = p.normalize := by
  simp [normalize, packageName_packageName, Text.trim_trim]

namespace Lockfile

/-! ## Putting and finding -/

variable {l : Lockfile}

theorem lookup_replace (p : Locked) (name : String) (ps : List (Option Locked)) :
    lookup name (replace p ps) = if p.name = name then some p else lookup name ps := by
  induction ps with
  | nil => rfl
  | cons q ps ih =>
    cases q with
    | none => exact ih
    | some q =>
      unfold replace
      split
      next hq =>
        simp only [lookup, hq]
        split <;> rfl
      next hq =>
        simp only [lookup, ih]
        split
        next hname =>
          rw [if_neg]
          rintro rfl
          exact hq hname
        next => rfl

theorem mem_replace {p q : Locked} {ps : List (Option Locked)} (h : some q ∈ replace p ps) :
    q = p ∨ some q ∈ ps := by
  induction ps with
  | nil => simpa [replace] using h
  | cons x ps ih =>
    cases x with
    | none =>
      have h : some q ∈ none :: replace p ps := h
      simp only [List.mem_cons, reduceCtorEq, false_or] at h ⊢
      exact ih h
    | some x =>
      unfold replace at h
      split at h
      · obtain h | h := List.mem_cons.1 h
        · exact .inl (Option.some.inj h)
        · exact .inr (List.mem_cons_of_mem _ h)
      · obtain h | h := List.mem_cons.1 h
        · exact .inr (h ▸ List.mem_cons_self)
        · exact (ih h).imp id (List.mem_cons_of_mem _)

theorem find?_put (l : Lockfile) (p : Locked) (name : String) :
    (l.put p).find? name =
      if packageName p.name = packageName name then some p.normalize else l.find? name :=
  lookup_replace p.normalize (packageName name) l.packages

theorem put_of_find? {p : Locked} (h : l.find? p.name = some p.normalize) : l.put p = l := by
  have hreplace : ∀ ps, lookup p.normalize.name ps = some p.normalize →
      replace p.normalize ps = ps := by
    intro ps
    induction ps with
    | nil => nofun
    | cons q ps ih =>
      cases q with
      | none => exact fun h => congrArg _ (ih h)
      | some q =>
        unfold lookup replace
        intro h
        split at h
        next hq =>
          cases h
          rw [if_pos rfl]
        next hq => rw [if_neg hq, ih h]
  rw [put, hreplace l.packages h]

/-! ## The order of packages -/

/-- No name is less than one before it. -/
abbrev Ascending (ps : List Locked) : Prop := ps.Pairwise fun a b => ¬ b.name < a.name

/-- The second list has the packages of the first one in the order of their names, those of one name
in the order in which they were. -/
structure Sorts (ps sorted : List Locked) : Prop where
  ascending : Ascending sorted
  perm : sorted.Perm ps
  stable : ∀ name, (sorted.filter fun p => p.name = name) = ps.filter fun p => p.name = name

theorem insertByName_perm (p : Locked) (ps : List Locked) : (insertByName p ps).Perm (p :: ps) := by
  induction ps with
  | nil => exact .refl _
  | cons q ps ih =>
    unfold insertByName
    split
    · exact .refl _
    · exact (ih.cons q).trans (.swap p q ps)

theorem insertByName_ascending {p : Locked} {ps : List Locked} (h : Ascending ps) :
    Ascending (insertByName p ps) := by
  induction ps with
  | nil => exact List.pairwise_singleton _ _
  | cons q ps ih =>
    obtain ⟨hq, hps⟩ := List.pairwise_cons.1 h
    unfold insertByName
    split
    next hlt =>
      refine List.pairwise_cons.2 ⟨List.forall_mem_cons.2 ⟨?_, fun x hx hxp => ?_⟩, h⟩
      · exact fun hqp => String.lt_irrefl _ (String.lt_trans hlt hqp)
      · exact hq x hx (String.lt_trans hxp hlt)
    next hlt =>
      refine List.pairwise_cons.2 ⟨fun x hx => ?_, ih hps⟩
      obtain rfl | hx := List.mem_cons.1 ((insertByName_perm p ps).mem_iff.1 hx)
      · exact hlt
      · exact hq x hx

theorem filter_insertByName {p : Locked} {ps : List Locked} (h : Ascending ps) (name : String) :
    (insertByName p ps).filter (fun q => q.name = name) =
      (ps ++ [p]).filter fun q => q.name = name := by
  induction ps with
  | nil => rfl
  | cons q ps ih =>
    obtain ⟨hq, hps⟩ := List.pairwise_cons.1 h
    unfold insertByName
    split
    next hlt =>
      -- All that stand behind are greater, so none of them has the name.
      by_cases hp : p.name = name
      · have hgreater : ∀ x ∈ q :: ps, x.name ≠ name := by
          rintro x hx rfl
          rw [hp] at hlt
          obtain rfl | hx := List.mem_cons.1 hx
          · exact String.lt_irrefl _ hlt
          · exact hq x hx hlt
        have hnone : (q :: ps).filter (fun x => x.name = name) = [] :=
          List.filter_eq_nil_iff.2 fun x hx => by simpa using hgreater x hx
        rw [List.filter_append, List.filter_cons, hnone, List.nil_append, List.filter_cons,
          List.filter_nil]
      · have hother : [p].filter (fun x => x.name = name) = [] := by simp [hp]
        rw [List.filter_append, hother, List.append_nil,
          List.filter_cons_of_neg (by simpa using hp)]
    next => rw [List.cons_append, List.filter_cons, List.filter_cons, ih hps]

theorem sorts_foldl (ps : List Locked) : ∀ {before sorted : List Locked}, Sorts before sorted →
    Sorts (before ++ ps) (ps.foldl (fun sorted p => insertByName p sorted) sorted) := by
  induction ps with
  | nil =>
    intro before sorted h
    rwa [List.append_nil]
  | cons p ps ih =>
    intro before sorted h
    have hperm : (p :: before).Perm (before ++ [p]) := (List.perm_append_singleton p before).symm
    have hnext : Sorts (before ++ [p]) (insertByName p sorted) := by
      refine ⟨insertByName_ascending h.ascending, ?_, fun name => ?_⟩
      · exact (insertByName_perm p sorted).trans ((h.perm.cons p).trans hperm)
      · rw [filter_insertByName h.ascending, List.filter_append, h.stable, List.filter_append]
    have hrest := ih hnext
    rwa [List.append_assoc] at hrest

theorem sorts_sortByName (ps : List Locked) : Sorts ps (sortByName ps) :=
  sorts_foldl ps ⟨.nil, .refl _, fun _ => rfl⟩

theorem insertByName_last {p : Locked} {ps : List Locked} (h : ∀ q ∈ ps, ¬ p.name < q.name) :
    insertByName p ps = ps ++ [p] := by
  induction ps with
  | nil => rfl
  | cons q ps ih =>
    obtain ⟨hq, hps⟩ := List.forall_mem_cons.1 h
    rw [insertByName, if_neg hq, ih hps, List.cons_append]

theorem foldl_insertByName (ps : List Locked) : ∀ {sorted : List Locked}, Ascending (sorted ++ ps) →
    ps.foldl (fun sorted p => insertByName p sorted) sorted = sorted ++ ps := by
  induction ps with
  | nil =>
    intro sorted _
    rw [List.append_nil, List.foldl_nil]
  | cons p ps ih =>
    intro sorted h
    have hlast : ∀ q ∈ sorted, ¬ p.name < q.name := fun q hq =>
      (List.pairwise_append.1 h).2.2 q hq p List.mem_cons_self
    have hmoved : sorted ++ p :: ps = sorted ++ [p] ++ ps := by
      rw [List.append_assoc, List.singleton_append]
    rw [List.foldl_cons, insertByName_last hlast, ih (hmoved ▸ h), hmoved]

theorem sortByName_of_ascending {ps : List Locked} (h : Ascending ps) : sortByName ps = ps := by
  have hnil : Ascending ([] ++ ps) := h
  exact foldl_insertByName ps hnil

theorem lookup_map_some (name : String) (ps : List Locked) :
    lookup name (ps.map some) = (ps.filter fun p => p.name = name).head? := by
  induction ps with
  | nil => rfl
  | cons p ps ih =>
    rw [List.map_cons, lookup, ih, List.filter_cons]
    by_cases hp : p.name = name <;> simp [hp]

theorem lookup_sortByName (ps : List Locked) (name : String) :
    lookup name ((sortByName ps).map some) = lookup name (ps.map some) := by
  rw [lookup_map_some, lookup_map_some, (sorts_sortByName ps).stable]

/-! ## Written forms of lockfiles -/

/-- The packages are in their written form. -/
def Settled (l : Lockfile) : Prop := ∀ p, some p ∈ l.packages → p.normalize = p

theorem mem_of_lookup {name : String} {ps : List (Option Locked)} {p : Locked}
    (h : lookup name ps = some p) : some p ∈ ps := by
  induction ps with
  | nil => cases h
  | cons q ps ih =>
    cases q with
    | none => exact List.mem_cons_of_mem _ (ih h)
    | some q =>
      unfold lookup at h
      split at h
      next =>
        cases h
        exact List.mem_cons_self
      next => exact List.mem_cons_of_mem _ (ih h)

theorem Settled.source (h : l.Settled) {name : String} {p : Locked} (hp : l.find? name = some p) :
    Text.trim p.source = p.source :=
  congrArg Locked.source (h p (mem_of_lookup hp))

theorem Settled.put (h : l.Settled) (p : Locked) : (l.put p).Settled := by
  intro q hq
  obtain rfl | hq := mem_replace hq
  · exact p.normalize_normalize
  · exact h q hq

theorem normalize_settled (l : Lockfile) : l.normalize.Settled := by
  intro p hp
  obtain ⟨q, hq, hqp⟩ := List.mem_map.1 hp
  cases hqp
  obtain ⟨r, -, rfl⟩ := List.mem_map.1 ((sorts_sortByName _).perm.mem_iff.1 hq)
  exact r.normalize_normalize

/-- A lockfile whose names are in their written form answers alike once all of it is, up to white
space around the texts. -/
theorem find?_normalize (h : ∀ p, some p ∈ l.packages → packageName p.name = p.name)
    (name : String) : l.normalize.find? name = (l.find? name).map Locked.normalize := by
  have hlookup : ∀ (ps : List (Option Locked)) (n : String),
      (∀ p, some p ∈ ps → packageName p.name = p.name) →
      lookup n (((ps.filterMap id).map Locked.normalize).map some) =
        (lookup n ps).map Locked.normalize := by
    intro ps n hps
    induction ps with
    | nil => rfl
    | cons p ps ih =>
      have ih := ih fun q hq => hps q (List.mem_cons_of_mem _ hq)
      cases p with
      | none => exact ih
      | some p =>
        have hp : p.normalize.name = p.name := hps p List.mem_cons_self
        change lookup n (some p.normalize :: _) = _
        rw [lookup, lookup, hp, ih]
        split <;> rfl
  exact (lookup_sortByName _ _).trans (hlookup l.packages _ h)

/-- A settled lockfile answers alike once it is written. -/
theorem Settled.find?_normalize (h : l.Settled) (name : String) :
    l.normalize.find? name = l.find? name := by
  have hnamed : ∀ p, some p ∈ l.packages → packageName p.name = p.name := fun p hp =>
    congrArg Locked.name (h p hp)
  rw [Lockfile.find?_normalize hnamed]
  cases hfound : l.find? name with
  | none => rfl
  | some p => rw [Option.map_some, h p (mem_of_lookup hfound)]

theorem stamped_settled (l : Lockfile) (now path : String) : (l.stamped now path).Settled :=
  normalize_settled _

theorem Settled.find?_stamped (h : l.Settled) (now path name : String) :
    (l.stamped now path).find? name = l.find? name :=
  Settled.find?_normalize (l := { l with
    path := path
    generated := if l.generated.isEmpty then now else l.generated }) h name

/-- What a lockfile is read as answers as it did. -/
theorem Settled.find?_read (h : l.Settled) (generated name : String) :
    (normalize { l with generated := generated }).find? name = l.find? name :=
  Settled.find?_normalize (l := { l with generated := generated }) h name

theorem eq_normalize_of_parse {bytes : List UInt8} {path : String} (h : parse bytes path = .ok l) :
    ∃ raw : Lockfile, l = raw.normalize := by
  unfold parse at h
  cases hdoc : Yaml.firstDocument bytes with
  | error e =>
    rw [hdoc] at h
    cases h
  | ok doc =>
    rw [hdoc] at h
    cases doc with
    | none => cases h
    | some s =>
      simp only [Except.mapError, bind, Except.bind] at h
      split at h
      next => cases h
      next =>
        cases h
        exact ⟨_, rfl⟩

theorem eq_normalize_of_load {t : Files.Tree} {here path : String} (h : load t here path = .ok l) :
    ∃ raw : Lockfile, l = raw.normalize := by
  unfold load at h
  split at h
  next => cases h
  next =>
    simp only at h
    cases hlook : t.look .open here (Files.absolute here path) with
    | error e =>
      rw [hlook] at h
      cases h
    | ok entry =>
      rw [hlook] at h
      cases entry with
      | directory => cases h
      | file bytes => exact eq_normalize_of_parse h

theorem load_settled {t : Files.Tree} {here path : String} (h : load t here path = .ok l) :
    l.Settled := by
  obtain ⟨raw, rfl⟩ := eq_normalize_of_load h
  exact normalize_settled raw

theorem load_eq_parse {t : Files.Tree} {here path : String} {bytes : List UInt8} (hpath : path ≠ "")
    (hlook : t.look .open here (Files.absolute here path) = .ok (.file bytes)) :
    load t here path = parse bytes (Files.absolute here path) := by
  unfold load
  rw [if_neg (by simpa using hpath)]
  simp only [hlook]
  rfl

/-- Where a lockfile is saved. -/
def target (l : Lockfile) (path : String) : String := if path.isEmpty then l.path else path

theorem save_nowhere {t : Files.Tree} {here now path : String} (h : l.target path = "") :
    l.save t here now path = (.error .missingPath, l) :=
  if_pos (String.isEmpty_iff.2 h)

theorem save_eq {t : Files.Tree} {here now path : String} (h : l.target path ≠ "") :
    l.save t here now path =
      let saved := l.stamped now (Files.absolute here (l.target path))
      ((t.write here saved.path (Text.bytes saved.text)).mapError .unwritten, saved) :=
  if_neg fun hempty => h (String.isEmpty_iff.1 hempty)

/-- Reading its text gives back what was written. -/
def ReadsBack (l : Lockfile) : Prop :=
  parse (Text.bytes l.text) l.path = .ok (normalize { l with generated := Text.trim l.generated })

theorem start_settled (root tool now : String) : (start root tool now).Settled := nofun

end Lockfile

end Package

end Arbor
