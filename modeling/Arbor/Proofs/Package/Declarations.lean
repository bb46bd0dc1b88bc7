import Arbor.Proofs.Package.Defects
import Arbor.Proofs.Package.Programs
import Arbor.Proofs.Yaml.Records

/-!
What becomes of the dependencies a document declares.

They are taken in pair by pair, and of two pairs with one name the later one counts: nothing is lost
exactly if pairs with one name declare the same (`Manifest.dependencies_declared`).
-/

set_option autoImplicit false

namespace Arbor

theorem Table.mem_of_ofPairs {α : Type} {pairs : List (String × α)} {p : String × α}
    (h : p ∈ Table.ofPairs pairs) : p ∈ pairs := by
  have hfold : ∀ t : Table α, p ∈ pairs.foldl (fun t p => Table.insert t p.1 p.2) t →
      p ∈ pairs ∨ p ∈ t := by
    clear h
    induction pairs with
    | nil => exact fun t hp => .inr hp
    | cons q pairs ih =>
      intro t hp
      obtain hp | hp := ih _ hp
      · exact .inl (List.mem_cons_of_mem _ hp)
      · obtain rfl | hp := Table.mem_of_insert hp
        · exact .inl List.mem_cons_self
        · exact .inr hp
  exact (hfold [] h).resolve_right nofun

theorem Table.find?_map {α β : Type} (t : Table α) (f : α → β) (key : String) :
    Table.find? (t.map fun p => (p.1, f p.2)) key = (Table.find? t key).map f := by
  induction t with
  | nil => rfl
  | cons p t ih =>
    obtain ⟨k, x⟩ := p
    by_cases hk : k = key
    · simp [Table.find?, hk]
    · simpa [Table.find?, hk] using ih

namespace Package

namespace Draft

variable {anchored : Array (Option Yaml.Node)} {fuel : Nat}

/-- The pair declares a dependency under the name that its key spells, with what its own value says. -/
def Declares (anchored : Array (Option Yaml.Node)) (fuel : Nat) (p : Yaml.Node × Yaml.Node)
    (spec : String × Option Dependency) : Prop :=
  ∃ written, textOf anchored p.1 = .ok written ∧ spec.1 = Text.trim written ∧ spec.1 ≠ "" ∧
    readDependency anchored fuel spec.1 p.2 = .ok spec.2

theorem readDependencies_declares {tag : String} {declared : List (Yaml.Node × Yaml.Node)}
    {line : Nat} {t : Table (Option Dependency)}
    (h : readDependencies anchored fuel (.mapping tag declared line) = .ok t) :
    ∃ specs, List.Forall₂ (Declares anchored fuel) declared specs ∧ t = Table.ofPairs specs := by
  unfold readDependencies at h
  unfold Table.ofPairs
  simp only at h
  generalize ([] : Table (Option Dependency)) = start at h ⊢
  induction declared generalizing start with
  | nil =>
    cases h
    exact ⟨[], .nil, rfl⟩
  | cons p declared ih =>
    obtain ⟨k, v⟩ := p
    rw [List.foldlM_cons] at h
    obtain ⟨next, hstep, h⟩ := exists_of_bind_eq_ok h
    obtain ⟨written, hk, hstep⟩ := exists_of_bind_eq_ok hstep
    simp only at hstep
    split at hstep
    next => cases hstep
    next hname =>
      obtain ⟨dep, hv, hstep⟩ := exists_of_bind_eq_ok hstep
      obtain rfl := Except.ok.inj hstep
      obtain ⟨specs, hspecs, rfl⟩ := ih _ h
      have hname : Text.trim written ≠ "" := by simpa using hname
      have hdeclares : Declares anchored fuel (k, v) (Text.trim written, dep) :=
        ⟨written, eq_ok_of_mapError hk, rfl, hname, hv⟩
      exact ⟨(Text.trim written, dep) :: specs, .cons hdeclares hspecs, rfl⟩

end Draft

namespace Manifest

/-- What was declared is among the dependencies, under its name. -/
def Represents (m : Manifest) (spec : String × Option Dependency) : Prop :=
  ∃ dep, spec.2 = some dep ∧ Table.find? m.dependencies spec.1 = some dep

/-- Every pair declares a dependency, the manifest has the last one of each name and no others, and
it represents all of them exactly if those of one name are the same. -/
theorem dependencies_declared {bytes : List UInt8} {path : String} {m : Manifest}
    (h : parse bytes path = .ok m) {s : Yaml.Stream}
    (hdoc : Yaml.firstDocument bytes = .ok (some s)) {tag : String}
    {pairs : List (Yaml.Node × Yaml.Node)} {line : Nat} (hroot : s.root = .mapping tag pairs line)
    {kline : Nat} {v : Yaml.Node} (hp : (.scalar Yaml.Tag.str "dependencies" kline, v) ∈ pairs)
    {tag' : String} {declared : List (Yaml.Node × Yaml.Node)} {line' : Nat}
    (hv : v.target? s.anchored = some (.mapping tag' declared line'))
    (htag : tag' ≠ Yaml.Tag.null) :
    ∃ specs, List.Forall₂ (Draft.Declares s.anchored s.depth) declared specs ∧
      (∀ name, (Table.find? m.dependencies name).map some = specs.reverse.lookup name) ∧
      ((∀ spec ∈ specs, m.Represents spec) ↔
        ∀ spec ∈ specs, ∀ other ∈ specs, spec.1 = other.1 → spec.2 = other.2) := by
  obtain ⟨d, hd, hm⟩ := parse_eq_ok_iff.1 h
  obtain ⟨-, -, -, -, hdependencies⟩ := Draft.manifest_keeps (Draft.parse_sorted hd) hm
  obtain ⟨t, ht, rfl⟩ : ∃ t, Draft.readDependencies s.anchored s.depth
      (.mapping tag' declared line') = .ok t ∧ d.dependencies = t :=
    Draft.parse_part (fun t d => d.dependencies = t) hd hdoc hroot hp hv htag rfl
      (fun _ => Draft.readDependencies_ne) (fun _ _ => rfl)
      (fun _ _ _ _ hne hsame ht => (hsame.dependencies hne).trans ht)
  obtain ⟨specs, hspecs, hofPairs⟩ := Draft.readDependencies_declares ht
  have hlookup : ∀ name, (Table.find? m.dependencies name).map some = specs.reverse.lookup name := by
    intro name
    rw [← Table.find?_map, ← raw, ← hdependencies, hofPairs, Table.ofPairs, Table.find?_foldl_insert_eq]
    simp [Table.find?]
  have hrepresents : ∀ spec, m.Represents spec ↔ specs.reverse.lookup spec.1 = some spec.2 := by
    intro spec
    unfold Represents
    rw [← hlookup]
    cases Table.find? m.dependencies spec.1 <;> simp [eq_comm]
  refine ⟨specs, hspecs, hlookup, ?_⟩
  simp only [hrepresents]
  constructor
  · intro hall spec hspec other hother hname
    have hsame := (hall spec hspec).symm.trans (hname ▸ hall other hother)
    exact Option.some.inj hsame
  · intro hsame spec hspec
    cases hfound : specs.reverse.lookup spec.1 with
    | none =>
      have hne := List.lookup_eq_none_iff.1 hfound spec (List.mem_reverse.2 hspec)
      simp at hne
    | some dep =>
      obtain ⟨before, after, hsplit, -⟩ := List.lookup_eq_some_iff.1 hfound
      have hmem : (spec.1, dep) ∈ specs := by
        rw [← List.mem_reverse, hsplit]
        exact List.mem_append_right _ List.mem_cons_self
      exact congrArg some (hsame _ hmem spec hspec rfl)

/-- A document that declares one dependency twice. -/
def twiceDeclared : List UInt8 :=
  Text.bytes "\x7bname: app, dependencies: \x7ba: ../x, a: ../y\x7d\x7d"

def onceKept : Manifest where
  path := "/p/lorgn.yml"
  name := "app"
  version := ""
  authors := []
  entry := none
  modules := []
  dependencies := [("a", ⟨"", "", "", "", "../y"⟩)]

set_option maxRecDepth 100000 in
theorem twiceDeclared_parse : parse twiceDeclared "/p/lorgn.yml" = .ok onceKept :=
  ok_of_toOption (by decide +kernel)

/-- The node is a mapping of one pair and then the dependencies, declared as those texts. -/
def declares (texts : List (String × String)) : Yaml.Node → Bool
  | .mapping _ [_, (k, .mapping tag pairs _)] _ =>
    k.isText "dependencies" && tag == "!!map" && Yaml.spells texts pairs
  | _ => false

set_option maxRecDepth 100000 in
theorem twiceDeclared_document : ∃ s tag p line kline line' k₁ v₁ k₂ v₂,
    Yaml.firstDocument twiceDeclared = .ok (some s) ∧
    s.root = .mapping tag [p, (.scalar Yaml.Tag.str "dependencies" kline, .mapping "!!map"
      [(.scalar Yaml.Tag.str "a" k₁, .scalar Yaml.Tag.str "../x" v₁),
       (.scalar Yaml.Tag.str "a" k₂, .scalar Yaml.Tag.str "../y" v₂)] line')] line := by
  obtain ⟨s, hdoc, hshape⟩ : ∃ s, Yaml.firstDocument twiceDeclared = .ok (some s) ∧
      declares [("a", "../x"), ("a", "../y")] s.root = true :=
    Yaml.document_of_any (by decide +kernel)
  unfold declares at hshape
  split at hshape
  next tag p k tag' pairs line' line hroot =>
    simp only [Bool.and_eq_true, beq_iff_eq] at hshape
    obtain ⟨⟨hk, rfl⟩, hpairs⟩ := hshape
    obtain ⟨kline, rfl⟩ := Yaml.Node.isText_iff.1 hk
    obtain ⟨k₁, v₁, rest, rfl, hk₁, hv₁, hrest⟩ := Yaml.spells_cons_iff.1 hpairs
    obtain ⟨k₂, v₂, rest, rfl, hk₂, hv₂, hrest⟩ := Yaml.spells_cons_iff.1 hrest
    obtain rfl := Yaml.spells_nil_iff.1 hrest
    obtain ⟨_, rfl⟩ := Yaml.Node.isText_iff.1 hk₁
    obtain ⟨_, rfl⟩ := Yaml.Node.isText_iff.1 hv₁
    obtain ⟨_, rfl⟩ := Yaml.Node.isText_iff.1 hk₂
    obtain ⟨_, rfl⟩ := Yaml.Node.isText_iff.1 hv₂
    exact ⟨s, tag, p, line, kline, line', _, _, _, _, hdoc, hroot⟩
  next => cases hshape

theorem dependencies_declared_twice : ∃ (m : Manifest) (s : Yaml.Stream)
    (declared : List (Yaml.Node × Yaml.Node)), parse twiceDeclared "/p/lorgn.yml" = .ok m ∧
    Yaml.firstDocument twiceDeclared = .ok (some s) ∧ declared.length = 2 ∧
    ∃ specs, List.Forall₂ (Draft.Declares s.anchored s.depth) declared specs ∧
      (∀ name, (Table.find? m.dependencies name).map some = specs.reverse.lookup name) ∧
      ((∀ spec ∈ specs, m.Represents spec) ↔
        ∀ spec ∈ specs, ∀ other ∈ specs, spec.1 = other.1 → spec.2 = other.2) := by
  obtain ⟨s, tag, p, line, kline, line', k₁, v₁, k₂, v₂, hdoc, hroot⟩ := twiceDeclared_document
  refine ⟨onceKept, s, _, twiceDeclared_parse, hdoc, rfl, dependencies_declared twiceDeclared_parse hdoc
    hroot (List.mem_cons_of_mem _ List.mem_cons_self) rfl ?_⟩
  decide

/-- Here the first of the two declarations is lost. -/
theorem dependency_lost : ∃ (m : Manifest) (s : Yaml.Stream) (tag : String)
    (pairs : List (Yaml.Node × Yaml.Node)) (line kline : Nat) (tag' : String)
    (declared : List (Yaml.Node × Yaml.Node)) (line' : Nat),
    parse twiceDeclared "/p/lorgn.yml" = .ok m ∧
    Yaml.firstDocument twiceDeclared = .ok (some s) ∧ s.root = .mapping tag pairs line ∧
    (.scalar Yaml.Tag.str "dependencies" kline, .mapping tag' declared line') ∈ pairs ∧
    ∃ p ∈ declared, ∃ spec, Draft.Declares s.anchored s.depth p spec ∧ ¬m.Represents spec := by
  obtain ⟨s, tag, p, line, kline, line', k₁, v₁, k₂, v₂, hdoc, hroot⟩ := twiceDeclared_document
  refine ⟨onceKept, s, tag, _, line, kline, _, _, line', twiceDeclared_parse, hdoc, hroot,
    List.mem_cons_of_mem _ List.mem_cons_self, _, List.mem_cons_self,
    ("a", some ⟨"", "", "", "", "../x"⟩), ⟨"a", rfl, ?_, ?_, ?_⟩, ?_⟩
  · decide +kernel
  · decide
  · have htrim : Text.trim "../x" = "../x" := by decide +kernel
    change Except.ok (some (Dependency.mk "" "" "" "" (Text.trim "../x"))) = _
    rw [htrim]
  · rintro ⟨dep, hdep, hfound⟩
    cases hdep
    revert hfound
    decide +kernel

end Manifest

end Package

end Arbor
