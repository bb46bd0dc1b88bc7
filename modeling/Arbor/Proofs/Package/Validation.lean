import Arbor.Proofs.Package.Declarations
import Arbor.Proofs.Package.Undescribed

/-!
Which drafts become manifests.

A draft renders its document: its modules stand in the order of the mapping that gives them, and its
texts have no white space around them, save in authors or dependencies that are tagged as null
(`Draft.Renders`). It becomes a manifest exactly if it is acceptable, otherwise every defect is reported
in order (`Manifest.parse_exact`).
-/

set_option autoImplicit false

namespace Arbor.Package

namespace Draft

variable {bytes : List UInt8} {d : Draft} {s : Yaml.Stream} {anchored : Array (Option Yaml.Node)}

/-! ## Modules -/

theorem forall₂_of_mapM {ε α β : Type} {f : α → Except ε β} {l : List α} {r : List β}
    (h : l.mapM f = .ok r) : List.Forall₂ (fun a b => f a = .ok b) l r := by
  induction l generalizing r with
  | nil =>
    cases h
    exact .nil
  | cons a l ih =>
    rw [List.mapM_cons] at h
    obtain ⟨b, hb, h⟩ := exists_of_bind_eq_ok h
    obtain ⟨bs, hbs, h⟩ := exists_of_bind_eq_ok h
    obtain rfl := Except.ok.inj h
    exact .cons hb (ih hbs)

theorem forall_of_forall₂ {α β : Type} {R : α → β → Prop} {P : β → Prop} {l : List α} {r : List β}
    (h : List.Forall₂ R l r) (hR : ∀ a b, R a b → P b) : ∀ b ∈ r, P b := by
  induction h with
  | nil => exact nofun
  | cons hb _ ih => exact List.forall_mem_cons.2 ⟨hR _ _ hb, ih⟩

/-- The pair names a module and its file. -/
def NamesFile (anchored : Array (Option Yaml.Node)) (p : Yaml.Node × Yaml.Node)
    (q : String × String) : Prop :=
  ∃ name file, textOf anchored p.1 = .ok name ∧ textOf anchored p.2 = .ok file ∧
    q = (Text.trim name, Text.trim file)

theorem readModules_entries {n : Yaml.Node} {modules : List (String × String)}
    (h : readModules anchored n = .ok modules) :
    ∃ tag entries line, n = .mapping tag entries line ∧
      List.Forall₂ (NamesFile anchored) entries modules := by
  cases n with
  | scalar | sequence | reference => cases h
  | mapping tag entries line =>
    refine ⟨tag, entries, line, rfl, (forall₂_of_mapM h).imp fun p q hq => ?_⟩
    obtain ⟨name, hname, hq⟩ := exists_of_bind_eq_ok hq
    obtain ⟨file, hfile, hq⟩ := exists_of_bind_eq_ok hq
    exact ⟨name, file, eq_ok_of_mapError hname, eq_ok_of_mapError hfile, (Except.ok.inj hq).symm⟩

theorem parse_modules (h : Draft.parse bytes = .ok (some d))
    (hdoc : Yaml.firstDocument bytes = .ok (some s)) :
    d.modules = [] ∨ ∃ tag entries line, Offered s "modules" (.mapping tag entries line) ∧
      List.Forall₂ (NamesFile s.anchored) entries d.modules := by
  refine parse_offered "modules" (fun d => d.modules = [] ∨ ∃ tag entries line,
    Offered s "modules" (.mapping tag entries line) ∧
      List.Forall₂ (NamesFile s.anchored) entries d.modules) h hdoc (.inl rfl) ?_ rfl ?_ ?_
  · intro d d' other hne hsame hd
    rwa [hsame.modules hne]
  · rintro n modules d hoffered - hread -
    obtain ⟨tag, entries, line, rfl, hentries⟩ := readModules_entries hread
    exact .inr ⟨tag, entries, line, hoffered, hentries⟩
  · intro n trail d hoffered htag hd
    exact .bind fun _ _ => .pure hd

/-! ## White space -/

theorem readAuthors_trimmed {n : Yaml.Node} {authors : List String}
    (h : readAuthors anchored n = .ok authors) :
    ∀ a ∈ authors, Text.trim a = a := by
  cases n with
  | mapping | reference => cases h
  | scalar tag written line =>
    obtain rfl := Except.ok.inj h
    split
    next => exact nofun
    next => exact List.forall_mem_singleton.2 (Text.trim_trim written)
  | sequence tag items line =>
    refine forall_of_forall₂ (forall₂_of_mapM h) fun n a ha => ?_
    obtain ⟨written, -, ha⟩ := exists_of_bind_eq_ok ha
    rw [← Except.ok.inj ha]
    exact Text.trim_trim written

/-- Neither the name of the dependency nor what is written about it has white space around it. -/
def TrimmedDependency (p : String × Option Dependency) : Prop :=
  Text.trim p.1 = p.1 ∧ p.1 ≠ "" ∧ ∀ dep, p.2 = some dep → ∀ text ∈ dep.texts, Text.trim text = text

theorem readDependency_trimmed {fuel : Nat} {name : String} {n : Yaml.Node} {dep : Dependency}
    (h : readDependency anchored fuel name n = .ok (some dep)) :
    ∀ text ∈ dep.texts, Text.trim text = text := by
  have hempty : Text.trim "" = "" := by decide +kernel
  cases n with
  | sequence | reference => cases h
  | scalar tag written line =>
    unfold readDependency at h
    simp only at h
    split at h
    next => cases h
    next =>
      cases h
      simp [Dependency.texts, Dependency.blank, hempty, Text.trim_trim]
  | mapping tag pairs line =>
    obtain ⟨d, -, h⟩ := exists_of_bind_eq_ok h
    cases h
    simp [Dependency.texts, Text.trim_trim]

theorem readDependencies_trimmed {fuel : Nat} {n : Yaml.Node} {t : Table (Option Dependency)}
    (h : readDependencies anchored fuel n = .ok t) : ∀ p ∈ t, TrimmedDependency p := by
  cases n with
  | scalar | sequence | reference => cases h
  | mapping tag declared line =>
    obtain ⟨specs, hspecs, rfl⟩ := readDependencies_declares h
    have htrimmed : ∀ p ∈ specs, TrimmedDependency p := by
      refine forall_of_forall₂ hspecs fun q p hp => ?_
      obtain ⟨written, -, hname, hne, hread⟩ := hp
      refine ⟨hname ▸ Text.trim_trim written, hne, fun dep hdep => ?_⟩
      exact readDependency_trimmed (hread.trans (congrArg _ hdep))
    exact fun p hp => htrimmed p (Table.mem_of_ofPairs hp)

/-- The texts of the draft have no white space around them, so that they are blank only if they are
empty. Authors and dependencies that are tagged as null are taken as they stand. -/
structure Trimmed (s : Yaml.Stream) (d : Draft) : Prop where
  authors : (∀ a ∈ d.authors, Text.trim a = a) ∨
    ∃ n, Offered s "authors" n ∧ n.tag = Yaml.Tag.null
  modules : ∀ q ∈ d.modules, Text.trim q.1 = q.1 ∧ Text.trim q.2 = q.2
  dependencies : (∀ p ∈ d.dependencies, TrimmedDependency p) ∨
    ∃ n, Offered s "dependencies" n ∧ n.tag = Yaml.Tag.null

theorem parse_trimmed (h : Draft.parse bytes = .ok (some d))
    (hdoc : Yaml.firstDocument bytes = .ok (some s)) : d.Trimmed s where
  authors := by
    refine parse_offered "authors" (fun d => (∀ a ∈ d.authors, Text.trim a = a) ∨
      ∃ n, Offered s "authors" n ∧ n.tag = Yaml.Tag.null) h hdoc (.inl nofun) ?_ rfl ?_ ?_
    · intro d d' other hne hsame hd
      rwa [hsame.authors hne]
    · intro n authors d _ _ hread _
      exact .inl (readAuthors_trimmed hread)
    · intro n trail d hoffered htag _ d' _
      exact .inr ⟨n, hoffered, htag⟩
  modules := by
    obtain hnone | ⟨tag, entries, line, -, hentries⟩ := parse_modules h hdoc
    · simp [hnone]
    · refine forall_of_forall₂ hentries fun p q hq => ?_
      obtain ⟨name, file, -, -, rfl⟩ := hq
      exact ⟨Text.trim_trim name, Text.trim_trim file⟩
  dependencies := by
    refine parse_offered "dependencies" (fun d => (∀ p ∈ d.dependencies, TrimmedDependency p) ∨
      ∃ n, Offered s "dependencies" n ∧ n.tag = Yaml.Tag.null) h hdoc (.inl nofun) ?_ rfl ?_ ?_
    · intro d d' other hne hsame hd
      rwa [hsame.dependencies hne]
    · intro n t d _ _ hread _
      exact .inl (readDependencies_trimmed hread)
    · intro n trail d hoffered htag _ d' _
      exact .inr ⟨n, hoffered, htag⟩

/-- What the draft holds is what the document says: the modules in the order of the mapping that gives
them, and texts without the white space around them. -/
structure Renders (d : Draft) (s : Yaml.Stream) : Prop where
  trimmed : d.Trimmed s
  origin : d.modules = [] ∨ ∃ tag entries line, Offered s "modules" (.mapping tag entries line) ∧
    List.Forall₂ (NamesFile s.anchored) entries d.modules
  modules : ∀ tag pairs line kline v tag' entries line', s.root = .mapping tag pairs line →
    (.scalar Yaml.Tag.str "modules" kline, v) ∈ pairs →
    v.target? s.anchored = some (.mapping tag' entries line') → tag' ≠ Yaml.Tag.null →
    List.Forall₂ (NamesFile s.anchored) entries d.modules

theorem parse_renders (h : Draft.parse bytes = .ok (some d))
    (hdoc : Yaml.firstDocument bytes = .ok (some s)) : d.Renders s where
  trimmed := parse_trimmed h hdoc
  origin := parse_modules h hdoc
  modules := by
    intro tag pairs line kline v tag' entries line' hroot hp hv htag
    obtain ⟨modules, hread, rfl⟩ : ∃ modules, readModules s.anchored (.mapping tag' entries line') =
        .ok modules ∧ d.modules = modules :=
      parse_part (fun modules d => d.modules = modules) h hdoc hroot hp hv htag rfl
        (fun _ => readModules_ne) (fun _ _ => rfl)
        (fun _ _ _ _ hne hsame hd => (hsame.modules hne).trans hd)
    obtain ⟨_, _, _, ⟨⟩, hentries⟩ := readModules_entries hread
    exact hentries

end Draft

namespace Manifest

theorem lookup_of_mem {l : List (String × String)} (h : (l.map Prod.fst).Nodup) {q : String × String}
    (hq : q ∈ l) : l.lookup q.1 = some q.2 := by
  induction l with
  | nil => cases hq
  | cons p l ih =>
    obtain ⟨hfresh, hl⟩ := List.nodup_cons.1 h
    obtain rfl | hq := List.mem_cons.1 hq
    · exact List.lookup_cons_self
    · have hne : (q.1 == p.1) = false := by
        rw [beq_eq_false_iff_ne]
        exact fun heq => hfresh (heq ▸ List.mem_map_of_mem hq)
      rw [List.lookup_cons, hne]
      exact ih hl hq

/-- A manifest whose dependencies, as the document has them, loading can go through. -/
structure Sound (m : Manifest) (d : Draft) : Prop where
  modules : m.modules = d.modules
  distinct : (m.modules.map Prod.fst).Nodup
  files : ∀ q ∈ m.modules, m.modules.lookup q.1 = some q.2 ∧ q.2 ≠ ""
  described : d.dependencies = m.raw
  loads : ∀ c files r more, Program.loadRaw c files m d.dependencies r more =
    ((Program.load c files (some m) r more).1.mapError some,
      (Program.load c files (some m) r more).2)

/-- A document is accepted exactly if nothing is wrong with its draft, which renders it, and all that
is wrong is reported otherwise; an accepted manifest is sound. -/
theorem parse_exact {bytes : List UInt8} {d : Draft} (h : Draft.parse bytes = .ok (some d))
    (path : String) :
    ((∃ m, parse bytes path = .ok m) ↔ d.Acceptable) ∧
    (¬d.Acceptable → ∃ vs, Defect.Lists (Defect.In d) vs ∧
      parse bytes path = .error (.invalid (vs.map Defect.problem))) ∧
    (∀ m, parse bytes path = .ok m → m.Sound d) ∧
    ∃ s, Yaml.firstDocument bytes = .ok (some s) ∧ d.Renders s := by
  have hsorted := Draft.parse_sorted h
  have hparse := parse_eq h path
  have hkeeps : ∀ m, parse bytes path = .ok m → d.manifest path = .ok m := by
    intro m hm
    obtain ⟨d', hd', hm⟩ := parse_eq_ok_iff.1 hm
    cases h.symm.trans hd'
    exact hm
  refine ⟨⟨?_, ?_⟩, ?_, ?_, ?_⟩
  · rintro ⟨m, hm⟩
    exact (Draft.manifest_keeps hsorted (hkeeps m hm)).1
  · intro hacceptable
    obtain ⟨-, m, hm⟩ | ⟨hnot, -⟩ := Draft.manifest_cases hsorted path
    · exact ⟨m, hparse.trans (congrArg _ hm)⟩
    · exact absurd hacceptable hnot
  · intro hnot
    obtain ⟨hacceptable, -⟩ | ⟨-, vs, hvs, hm⟩ := Draft.manifest_cases hsorted path
    · exact absurd hacceptable hnot
    · exact ⟨vs, hvs, hparse.trans (congrArg _ hm)⟩
  · intro m hm
    obtain ⟨hacceptable, -, hmodules, -, hraw⟩ := Draft.manifest_keeps hsorted (hkeeps m hm)
    have hnodup : (m.modules.map Prod.fst).Nodup := hmodules ▸ hacceptable.distinct
    refine ⟨hmodules, hnodup, fun q hq => ⟨lookup_of_mem hnodup hq, ?_⟩, hraw, fun c files r more => ?_⟩
    · exact hacceptable.files q (hmodules ▸ hq)
    · rw [hraw]
      exact Program.loadRaw_eq c files m r more
  · obtain ⟨s, r, hdoc, -⟩ := Draft.parse_eq_ok_iff.1 h
    exact ⟨s, hdoc, Draft.parse_renders h hdoc⟩

/-- A document with something wrong in every part. -/
def flawed : List UInt8 :=
  Text.bytes ("\x7bauthors: ['', b], modules: \x7b'': x, m: y, 'm ': ''\x7d, entry: \x7bmodule: m\x7d, " ++
    "dependencies: \x7bz: , a: \x7brev: r\x7d\x7d\x7d")

/-- All that is wrong with it. -/
def flaws : List Problem :=
  [.unnamed, .emptyAuthor 0, .unnamedModule, .moduleTwice "m", .partialEntry,
   .dependency "a" .noSource, .dependency "a" .pinWithoutGit, .dependency "z" .noSource]

/-- What is reported of a document. -/
def reported (r : Except ManifestError Manifest) : Option (List Problem) :=
  match r with
  | .error (.invalid problems) => some problems
  | _ => none

theorem eq_of_reported {r : Except ManifestError Manifest} {problems : List Problem}
    (h : reported r = some problems) : r = .error (.invalid problems) := by
  unfold reported at h
  split at h
  next =>
    cases h
    rfl
  next => cases h

set_option maxRecDepth 100000 in
theorem parse_exact_flawed : ∃ d, Draft.parse flawed = .ok (some d) ∧ ¬d.Acceptable ∧
    ∃ vs, Defect.Lists (Defect.In d) vs ∧ vs.map Defect.problem = flaws := by
  have hparse : parse flawed "/p/lorgn.yml" = .error (.invalid flaws) :=
    eq_of_reported (by decide +kernel)
  obtain ⟨d, hd⟩ : ∃ d, Draft.parse flawed = .ok (some d) := by
    obtain hd | hnone | ⟨fault, hnone⟩ := parse_cases flawed "/p/lorgn.yml"
    · exact hd
    · cases hparse.symm.trans hnone
    · cases hparse.symm.trans hnone
  obtain ⟨hiff, hdefects, -⟩ := parse_exact hd "/p/lorgn.yml"
  have hnot : ¬d.Acceptable := fun hacceptable => by
    obtain ⟨m, hm⟩ := hiff.2 hacceptable
    cases hparse.symm.trans hm
  obtain ⟨vs, hvs, herror⟩ := hdefects hnot
  refine ⟨d, hd, hnot, vs, hvs, ?_⟩
  exact ManifestError.invalid.inj (Except.error.inj (herror.symm.trans hparse))

/-- A document whose only module has neither a name nor a file. -/
def nameless : List UInt8 := Text.bytes "\x7bname: app, modules: \x7b'': ''\x7d\x7d"

/-- A document with a blank author in a list that is tagged as null. -/
def blankAuthor : List UInt8 := Text.bytes "\x7bname: app, authors: !!null [' ']\x7d"

theorem draft_of_toOption {α : Type} {bytes : List UInt8} {f : Draft → α} {a : α}
    (h : (Draft.parse bytes).toOption.join.map f = some a) :
    ∃ d, Draft.parse bytes = .ok (some d) ∧ f d = a := by
  obtain ⟨d, hd, ha⟩ := Option.map_eq_some_iff.1 h
  exact ⟨d, ok_of_toOption (Option.join_eq_some_iff.1 hd), ha⟩

set_option maxRecDepth 100000 in
/-- A module without a name and a file is reported once, and blank authors may pass. -/
theorem not_every_violation_reported :
    (∃ d, Draft.parse nameless = .ok (some d) ∧ d.modules = [("", "")] ∧
      parse nameless "/p/lorgn.yml" = .error (.invalid [.unnamedModule])) ∧
    ∃ d m, Draft.parse blankAuthor = .ok (some d) ∧ parse blankAuthor "/p/lorgn.yml" = .ok m ∧
      ∃ a ∈ d.authors, Text.trim a = "" := by
  obtain ⟨d, hd, hmodules⟩ : ∃ d, Draft.parse nameless = .ok (some d) ∧ d.modules = [("", "")] :=
    draft_of_toOption (by decide +kernel)
  obtain ⟨d', hd', hauthors⟩ : ∃ d, Draft.parse blankAuthor = .ok (some d) ∧ d.authors = [" "] :=
    draft_of_toOption (by decide +kernel)
  have haccepted : (parse blankAuthor "/p/lorgn.yml").toOption.isSome := by decide +kernel
  obtain ⟨m, hm⟩ := Option.isSome_iff_exists.1 haccepted
  refine ⟨⟨d, hd, hmodules, eq_of_reported (by decide +kernel)⟩, d', m, hd', ok_of_toOption hm, " ",
    ?_, by decide +kernel⟩
  rw [hauthors]
  exact List.mem_singleton_self _

end Manifest

end Arbor.Package
