import Arbor.Package.Manifest.Basic
import Arbor.Proofs.Package.Lockfiles

/-!
What is wrong with a draft of a manifest.

A `Defect` is one thing that is wrong, together with where it is. `Defect.In` says when a draft
has it and `Defect.Before` in which order they are reported; a list of defects that is in that
order and has all of them is determined by that. `Draft.problems` reports this list
(`problems_list`), and a draft without defects is `Acceptable`.
-/

set_option autoImplicit false

namespace Arbor.Package

/-! ## Defects -/

/-- The revisions a dependency may give. -/
def Dependency.pins (d : Dependency) : List String := [d.rev, d.tag, d.branch]

/-- Everything written about a dependency. -/
def Dependency.texts (d : Dependency) : List String := [d.git, d.rev, d.tag, d.branch, d.path]

namespace DependencyProblem

/-- The dependency, which may not be described at all, has the problem. -/
def Afflicts : DependencyProblem → Option Dependency → Prop
  | noSource, none => True
  | _, none => False
  | bothSources, some d => d.git ≠ "" ∧ d.path ≠ ""
  | noSource, some d => d.git = "" ∧ d.path = ""
  | pinWithoutGit, some d => d.git = "" ∧ ∃ pin ∈ d.pins, pin ≠ ""
  | manyPins, some d => 1 < d.pins.countP (· ≠ "")

/-- Problems of one dependency are reported in this order. -/
def rank : DependencyProblem → Nat
  | bothSources => 0
  | noSource => 0
  | pinWithoutGit => 1
  | manyPins => 2

end DependencyProblem

namespace Dependency

theorem problems_ordered (d : Dependency) : d.problems.Pairwise fun p q => p.rank < q.rank := by
  unfold problems
  simp only
  repeat' split
  all_goals simp [DependencyProblem.rank]

theorem mem_problems_iff (d : Dependency) (p : DependencyProblem) :
    p ∈ d.problems ↔ p.Afflicts (some d) := by
  have hfilter : [d.rev, d.tag, d.branch].filter (!·.isEmpty) = d.pins.filter (· ≠ "") :=
    List.filter_congr fun pin _ => by
      rw [Bool.eq_iff_iff]
      simp
  have hsome : (d.pins.filter (· ≠ "")).isEmpty = false ↔ ∃ pin ∈ d.pins, pin ≠ "" := by
    simp [← Bool.not_eq_true, List.isEmpty_iff]
  have hmany : (d.pins.filter (· ≠ "")).length = d.pins.countP (· ≠ "") :=
    List.countP_eq_length_filter.symm
  simp only [problems, hfilter, hmany]
  simp only [List.mem_append, List.mem_ite_nil_right, Bool.and_eq_true, Bool.not_eq_true', hsome]
  by_cases hgit : d.git = "" <;> by_cases hpath : d.path = "" <;> cases p <;>
    simp [DependencyProblem.Afflicts, hgit, hpath]

end Dependency

/-- One thing that is wrong with a draft, and where. -/
inductive Defect where
  | unnamed
  | emptyAuthor (index : Nat)
  | unnamedModule (index : Nat)
  | moduleTwice (index : Nat) (name : String)
  | moduleWithoutFile (index : Nat) (name : String)
  | partialEntry
  | dependency (name : String) (problem : DependencyProblem)

namespace Defect

/-- How it is reported. -/
def problem : Defect → Problem
  | unnamed => .unnamed
  | emptyAuthor i => .emptyAuthor i
  | unnamedModule _ => .unnamedModule
  | moduleTwice _ name => .moduleTwice name
  | moduleWithoutFile _ name => .moduleWithoutFile name
  | partialEntry => .partialEntry
  | dependency name p => .dependency name p

/-- The draft is wrong in that way. An entry of the modules has at most one defect: it has no name,
or its name was declared before, or else it may have no file. -/
def In (d : Draft) : Defect → Prop
  | unnamed => Text.trim d.name = ""
  | emptyAuthor i => d.authors[i]? = some ""
  | unnamedModule i => ∃ file, d.modules[i]? = some ("", file)
  | moduleTwice i name => name ≠ "" ∧ name ∈ (d.modules.take i).map Prod.fst ∧
      ∃ file, d.modules[i]? = some (name, file)
  | moduleWithoutFile i name => name ≠ "" ∧ name ∉ (d.modules.take i).map Prod.fst ∧
      d.modules[i]? = some (name, "")
  | partialEntry => ∃ e, d.entry = some e ∧ (e.module = "" ∨ e.function = "")
  | dependency name p => ∃ dep, (name, dep) ∈ d.dependencies ∧ p.Afflicts dep

/-- The part of a manifest it is in, and the number of the entry there. -/
def place : Defect → Nat × Nat
  | unnamed => (0, 0)
  | emptyAuthor i => (1, i)
  | unnamedModule i => (2, i)
  | moduleTwice i _ => (2, i)
  | moduleWithoutFile i _ => (2, i)
  | partialEntry => (3, 0)
  | dependency .. => (4, 0)

/-- The first one is reported before the second one: by the part, then by the number of the entry;
those of dependencies by name, then by the problem. -/
def Before : Defect → Defect → Prop
  | dependency name p, dependency name' p' => name < name' ∨ name = name' ∧ p.rank < p'.rank
  | v, w => v.place.1 < w.place.1 ∨ v.place.1 = w.place.1 ∧ v.place.2 < w.place.2

theorem before_iff {v w : Defect} (h : v.place ≠ w.place) : v.Before w ↔
    v.place.1 < w.place.1 ∨ v.place.1 = w.place.1 ∧ v.place.2 < w.place.2 := by
  cases v <;> cases w <;> first | exact .rfl | exact absurd rfl h

theorem before_of_part {v w : Defect} (h : v.place.1 < w.place.1) : v.Before w := by
  have hne : v.place ≠ w.place := fun heq => by
    rw [heq] at h
    exact lt_irrefl _ h
  exact (before_iff hne).2 (.inl h)

/-- The list has every defect of a kind, once and in order. -/
structure Lists (kind : Defect → Prop) (vs : List Defect) : Prop where
  ordered : vs.Pairwise Before
  mem_iff : ∀ v, v ∈ vs ↔ kind v

variable {kind kind' : Defect → Prop} {vs ws : List Defect}

theorem Lists.congr (h : Lists kind vs) (hiff : ∀ v, kind v ↔ kind' v) : Lists kind' vs :=
  ⟨h.ordered, fun v => (h.mem_iff v).trans (hiff v)⟩

theorem Lists.append (h : Lists kind vs) (h' : Lists kind' ws)
    (hbefore : ∀ v w, kind v → kind' w → v.Before w) :
    Lists (fun v => kind v ∨ kind' v) (vs ++ ws) where
  ordered := List.pairwise_append.2 ⟨h.ordered, h'.ordered, fun v hv w hw =>
    hbefore v w ((h.mem_iff v).1 hv) ((h'.mem_iff w).1 hw)⟩
  mem_iff v := by rw [List.mem_append, h.mem_iff, h'.mem_iff]

/-- After the defects of the parts before come those of the next one. -/
theorem Lists.next {d : Draft} {k : Nat} {vs ws : List Defect}
    (h : Lists (fun v => v.place.1 < k ∧ v.In d) vs) (h' : Lists (fun v => v.place.1 = k ∧ v.In d) ws) :
    Lists (fun v => v.place.1 < k + 1 ∧ v.In d) (vs ++ ws) := by
  refine (h.append h' fun v w hv hw => before_of_part (by omega)).congr fun v => ?_
  rw [← or_and_right, Nat.lt_succ_iff_lt_or_eq]

theorem lists_nil : Lists (fun _ => False) [] := ⟨.nil, fun v => by simp⟩

theorem lists_single (v : Defect) : Lists (fun w => w = v) [v] :=
  ⟨List.pairwise_singleton _ _, fun _ => List.mem_singleton⟩

theorem lists_if (c : Prop) [Decidable c] (v : Defect) :
    Lists (fun w => c ∧ w = v) (if c then [v] else []) := by
  split
  next h => exact ⟨List.pairwise_singleton _ _, fun w => by simp [h]⟩
  next h => exact ⟨.nil, fun w => by simp [h]⟩

end Defect

/-! ## The parts of a draft -/

namespace Draft

open Defect

theorem name_list (name : String) :
    ∃ vs, Lists (fun v => Text.trim name = "" ∧ v = .unnamed) vs ∧
      (if (packageName name).isEmpty then [Problem.unnamed] else []) = vs.map problem := by
  have hiff : (packageName name).isEmpty = true ↔ Text.trim name = "" := by
    simp [packageName, Text.trim, Text.segment]
  refine ⟨_, lists_if (Text.trim name = "") .unnamed, ?_⟩
  simp only [hiff]
  split <;> rfl

theorem authors_list (k : Nat) (authors : List String) :
    ∃ vs, Lists (fun v => ∃ i, authors[i]? = some "" ∧ v = .emptyAuthor (k + i)) vs ∧
      authorProblems k authors = vs.map problem := by
  induction authors generalizing k with
  | nil => exact ⟨[], lists_nil.congr fun v => by simp, rfl⟩
  | cons a rest ih =>
    obtain ⟨vs, hvs, hrest⟩ := ih (k + 1)
    refine ⟨_, ((lists_if (a = "") (.emptyAuthor k)).append hvs ?_).congr ?_, ?_⟩
    · rintro v w ⟨-, rfl⟩ ⟨i, -, rfl⟩
      exact .inr ⟨rfl, by simp only [place]; omega⟩
    · intro v
      constructor
      · rintro (⟨ha, rfl⟩ | ⟨i, hi, rfl⟩)
        · exact ⟨0, by simpa using ha, rfl⟩
        · exact ⟨i + 1, by simpa using hi, by congr 1; omega⟩
      · rintro ⟨i, hi, rfl⟩
        cases i with
        | zero => exact .inl ⟨by simpa using hi, rfl⟩
        | succ i => exact .inr ⟨i, by simpa using hi, by congr 1; omega⟩
    · simp only [authorProblems, hrest, List.map_append, String.isEmpty_iff]
      congr 1
      split <;> rfl

/-- The entry with that number has the defect. -/
def ModuleAt (modules : List (String × String)) (i : Nat) (v : Defect) : Prop :=
  (∃ file, modules[i]? = some ("", file)) ∧ v = .unnamedModule i ∨
  ∃ name, name ≠ "" ∧
    (name ∈ (modules.take i).map Prod.fst ∧ (∃ file, modules[i]? = some (name, file)) ∧
        v = .moduleTwice i name ∨
      name ∉ (modules.take i).map Prod.fst ∧ modules[i]? = some (name, "") ∧
        v = .moduleWithoutFile i name)

theorem ModuleAt.place {modules : List (String × String)} {i : Nat} {v : Defect}
    (h : ModuleAt modules i v) : v.place = (2, i) := by
  obtain ⟨-, rfl⟩ | ⟨name, -, ⟨-, -, rfl⟩ | ⟨-, -, rfl⟩⟩ := h <;> rfl

theorem moduleAt_length {earlier rest : List (String × String)} {name file : String} {v : Defect} :
    ModuleAt (earlier ++ (name, file) :: rest) earlier.length v ↔
      name = "" ∧ v = .unnamedModule earlier.length ∨
      name ≠ "" ∧ (name ∈ earlier.map Prod.fst ∧ v = .moduleTwice earlier.length name ∨
        name ∉ earlier.map Prod.fst ∧ file = "" ∧ v = .moduleWithoutFile earlier.length name) := by
  have hat : (earlier ++ (name, file) :: rest)[earlier.length]? = some (name, file) := by simp
  have htake : (earlier ++ (name, file) :: rest).take earlier.length = earlier := by simp
  simp only [ModuleAt, hat, htake, Option.some.injEq, Prod.mk.injEq]
  constructor
  · rintro (⟨⟨file', rfl, -⟩, rfl⟩ | ⟨name', hne, ⟨hin, ⟨file', rfl, -⟩, rfl⟩ | ⟨hout, ⟨rfl, rfl⟩, rfl⟩⟩)
    · exact .inl ⟨rfl, rfl⟩
    · exact .inr ⟨hne, .inl ⟨hin, rfl⟩⟩
    · exact .inr ⟨hne, .inr ⟨hout, rfl, rfl⟩⟩
  · rintro (⟨rfl, rfl⟩ | ⟨hne, ⟨hin, rfl⟩ | ⟨hout, rfl, rfl⟩⟩)
    · exact .inl ⟨⟨file, rfl, rfl⟩, rfl⟩
    · exact .inr ⟨name, hne, .inl ⟨hin, ⟨file, rfl, rfl⟩, rfl⟩⟩
    · exact .inr ⟨name, hne, .inr ⟨hout, ⟨rfl, rfl⟩, rfl⟩⟩

/-- The defect of an entry itself stands before those of the entries after it. -/
theorem modules_cons {earlier rest : List (String × String)} {q : String × String}
    {ws vs : List Defect} (hws : Lists (ModuleAt (earlier ++ q :: rest) earlier.length) ws)
    (hvs : Lists (fun v => ∃ i, (earlier ++ [q]).length ≤ i ∧
      ModuleAt ((earlier ++ [q]) ++ rest) i v) vs) :
    Lists (fun v => ∃ i, earlier.length ≤ i ∧ ModuleAt (earlier ++ q :: rest) i v) (ws ++ vs) := by
  rw [List.append_assoc, List.singleton_append, List.length_append, List.length_singleton] at hvs
  refine (hws.append hvs ?_).congr fun v => ?_
  · rintro v w hv ⟨i, hi, hw⟩
    rw [before_iff] <;> simp [hv.place, hw.place]
    all_goals omega
  · constructor
    · rintro (hv | ⟨i, hi, hv⟩)
      · exact ⟨_, le_rfl, hv⟩
      · exact ⟨i, by omega, hv⟩
    · rintro ⟨i, hi, hv⟩
      obtain rfl | hlt := Nat.eq_or_lt_of_le hi
      · exact .inl hv
      · exact .inr ⟨i, hlt, hv⟩

theorem modules_list (earlier rest : List (String × String)) (seen : List String)
    (hseen : ∀ name, name ≠ "" → (name ∈ seen ↔ name ∈ earlier.map Prod.fst)) :
    ∃ vs, Lists (fun v => ∃ i, earlier.length ≤ i ∧ ModuleAt (earlier ++ rest) i v) vs ∧
      moduleProblems seen rest = vs.map problem := by
  induction rest generalizing earlier seen with
  | nil =>
    refine ⟨[], lists_nil.congr fun v => ⟨False.elim, ?_⟩, rfl⟩
    rintro ⟨i, hi, h⟩
    have hnone : (earlier ++ [])[i]? = none := List.getElem?_eq_none (by simpa using hi)
    simp only [ModuleAt, hnone, reduceCtorEq, exists_false, false_and, and_false, or_self] at h
  | cons q rest ih =>
    obtain ⟨name, file⟩ := q
    by_cases hname : name = ""
    · obtain ⟨vs, hvs, hrest⟩ := ih (earlier ++ [(name, file)]) seen fun other hother => by
        simp [hseen other hother, hname, hother]
      have hhere : Lists (ModuleAt (earlier ++ (name, file) :: rest) earlier.length)
          [.unnamedModule earlier.length] :=
        (lists_single _).congr fun v => by simp [moduleAt_length, hname]
      refine ⟨_, modules_cons hhere hvs, ?_⟩
      simp [moduleProblems, hname, hrest, problem]
    · by_cases hin : name ∈ seen
      · have hin' : name ∈ earlier.map Prod.fst := (hseen name hname).1 hin
        obtain ⟨vs, hvs, hrest⟩ := ih (earlier ++ [(name, file)]) seen fun other hother => by
          rw [hseen other hother, List.map_append, List.mem_append]
          refine ⟨.inl, fun h => h.elim id fun heq => ?_⟩
          rw [List.mem_singleton.1 heq]
          exact hin'
        have hhere : Lists (ModuleAt (earlier ++ (name, file) :: rest) earlier.length)
            [.moduleTwice earlier.length name] :=
          (lists_single _).congr fun v => by simp [moduleAt_length, hname, hin']
        refine ⟨_, modules_cons hhere hvs, ?_⟩
        simp [moduleProblems, hname, hin, hrest, problem]
      · have hout : name ∉ earlier.map Prod.fst := fun h => hin ((hseen name hname).2 h)
        obtain ⟨vs, hvs, hrest⟩ := ih (earlier ++ [(name, file)]) (name :: seen)
          fun other hother => by
            rw [List.mem_cons, hseen other hother, List.map_append, List.mem_append, or_comm]
            simp
        have hhere : Lists (ModuleAt (earlier ++ (name, file) :: rest) earlier.length)
            (if file = "" then [.moduleWithoutFile earlier.length name] else []) :=
          (lists_if ..).congr fun v => by simp [moduleAt_length, hname, hout]
        refine ⟨_, modules_cons hhere hvs, ?_⟩
        simp only [moduleProblems, hrest, List.map_append, String.isEmpty_iff, hname, if_false,
          List.contains_iff_mem, hin]
        congr 1
        split <;> rfl

theorem entry_list (entry : Option EntryPoint) :
    ∃ vs, Lists (fun v => (∃ e, entry = some e ∧ (e.module = "" ∨ e.function = "")) ∧
        v = .partialEntry) vs ∧
      (match entry with
        | some e => if e.module.isEmpty || e.function.isEmpty then [Problem.partialEntry] else []
        | none => []) = vs.map problem := by
  cases entry with
  | none => exact ⟨[], lists_nil.congr fun v => by simp, rfl⟩
  | some e =>
    refine ⟨_, (lists_if (e.module = "" ∨ e.function = "") .partialEntry).congr fun v => ?_, ?_⟩
    · simp
    · simp only [Bool.or_eq_true, String.isEmpty_iff]
      split <;> rfl

theorem dependency_list (name : String) (dep : Option Dependency) :
    ∃ vs, Lists (fun v => ∃ p, DependencyProblem.Afflicts p dep ∧ v = .dependency name p) vs ∧
      dependencyProblems (name, dep) = vs.map problem := by
  have hlist : ∀ ps : List DependencyProblem, ps.Pairwise (fun p q => p.rank < q.rank) →
      (∀ p, p ∈ ps ↔ p.Afflicts dep) →
      Lists (fun v => ∃ p, DependencyProblem.Afflicts p dep ∧ v = .dependency name p)
        (ps.map (.dependency name)) := by
    intro ps hps hmem
    refine ⟨List.pairwise_map.2 (hps.imp fun h => .inr ⟨rfl, h⟩), fun v => ?_⟩
    simp only [List.mem_map, hmem]
    exact exists_congr fun p => and_congr_right fun _ => eq_comm
  cases dep with
  | none =>
    refine ⟨_, hlist [.noSource] (List.pairwise_singleton _ _) fun p => ?_, rfl⟩
    cases p <;> simp [DependencyProblem.Afflicts]
  | some d =>
    refine ⟨_, hlist d.problems d.problems_ordered d.mem_problems_iff, ?_⟩
    rw [List.map_map]
    rfl

theorem dependencies_list {t : Table (Option Dependency)} (ht : t.Ordered) :
    ∃ vs, Lists (fun v => ∃ name p, v = .dependency name p ∧ ∃ dep, (name, dep) ∈ t ∧
        DependencyProblem.Afflicts p dep) vs ∧
      t.flatMap dependencyProblems = vs.map problem := by
  induction t with
  | nil => exact ⟨[], lists_nil.congr fun v => by simp, rfl⟩
  | cons q t ih =>
    obtain ⟨name, dep⟩ := q
    obtain ⟨hname, ht⟩ := List.pairwise_cons.1 ht
    obtain ⟨vs, hvs, hrest⟩ := ih ht
    obtain ⟨ws, hws, hfirst⟩ := dependency_list name dep
    refine ⟨ws ++ vs, (hws.append hvs ?_).congr fun v => ?_, ?_⟩
    · rintro v w ⟨p, -, rfl⟩ ⟨name', p', rfl, dep', hdep', -⟩
      exact .inl (hname name' (List.mem_map_of_mem hdep'))
    · constructor
      · rintro (⟨p, hp, rfl⟩ | ⟨name', p, rfl, dep', hdep', hp⟩)
        · exact ⟨name, p, rfl, dep, List.mem_cons_self, hp⟩
        · exact ⟨name', p, rfl, dep', List.mem_cons_of_mem _ hdep', hp⟩
      · rintro ⟨name', p, rfl, dep', hdep', hp⟩
        obtain heq | hdep' := List.mem_cons.1 hdep'
        · cases heq
          exact .inl ⟨p, hp, rfl⟩
        · exact .inr ⟨name', p, rfl, dep', hdep', hp⟩
    · rw [List.flatMap_cons, hfirst, hrest, List.map_append]

/-- The problems of a draft are its defects, each reported once and in order. -/
theorem problems_list {d : Draft} (hd : d.dependencies.Ordered) :
    ∃ vs, Lists (Defect.In d) vs ∧ d.problems = vs.map problem := by
  obtain ⟨vs₁, h₁, hname⟩ := name_list d.name
  obtain ⟨vs₂, h₂, hauthors⟩ := authors_list 0 d.authors
  obtain ⟨vs₃, h₃, hmodules⟩ := modules_list [] d.modules [] (by simp)
  obtain ⟨vs₄, h₄, hentry⟩ := entry_list d.entry
  obtain ⟨vs₅, h₅, hdependencies⟩ := dependencies_list hd
  have h₁ : Lists (fun v => v.place.1 = 0 ∧ v.In d) vs₁ :=
    h₁.congr fun v => by cases v <;> simp [place, Defect.In]
  have h₂ : Lists (fun v => v.place.1 = 1 ∧ v.In d) vs₂ :=
    h₂.congr fun v => by cases v <;> simp [place, Defect.In]
  have h₃ : Lists (fun v => v.place.1 = 2 ∧ v.In d) vs₃ :=
    h₃.congr fun v => by cases v <;> simp [place, Defect.In, ModuleAt]
  have h₄ : Lists (fun v => v.place.1 = 3 ∧ v.In d) vs₄ :=
    h₄.congr fun v => by cases v <;> simp [place, Defect.In]
  have h₅ : Lists (fun v => v.place.1 = 4 ∧ v.In d) vs₅ :=
    h₅.congr fun v => by cases v <;> simp [place, Defect.In]
  have h₀ : Lists (fun v => v.place.1 < 0 ∧ v.In d) [] := lists_nil.congr fun v => by simp
  refine ⟨_, (((((h₀.next h₁).next h₂).next h₃).next h₄).next h₅).congr fun v => ?_, ?_⟩
  · cases v <;> simp [place]
  · have hparts := congrArg₂ (· ++ ·) (congrArg₂ (· ++ ·) (congrArg₂ (· ++ ·)
      (congrArg₂ (· ++ ·) hname hauthors) hmodules) hentry) hdependencies
    refine Eq.trans hparts ?_
    simp only [List.map_append, List.nil_append]

end Draft

/-! ## Drafts without defects -/

/-- The dependencies of a manifest as those of a draft. -/
def Manifest.raw (m : Manifest) : Table (Option Dependency) :=
  m.dependencies.map fun p => (p.1, some p.2)

/-- The dependency has one source, and at most one revision, which only a repository may have. -/
structure Dependency.Complete (d : Dependency) : Prop where
  source : d.git = "" ↔ d.path ≠ ""
  pins : d.pins.countP (· ≠ "") ≤ 1
  pinned : d.git = "" → ∀ pin ∈ d.pins, pin = ""

namespace Draft

/-- What is asked of a draft. -/
structure Acceptable (d : Draft) : Prop where
  name : Text.trim d.name ≠ ""
  authors : ∀ a ∈ d.authors, a ≠ ""
  moduleNames : ∀ q ∈ d.modules, q.1 ≠ ""
  distinct : (d.modules.map Prod.fst).Nodup
  files : ∀ q ∈ d.modules, q.2 ≠ ""
  entry : ∀ e, d.entry = some e → e.module ≠ "" ∧ e.function ≠ ""
  dependencies : ∀ p ∈ d.dependencies, ∃ dep, p.2 = some dep ∧ dep.Complete

theorem complete_iff {d : Dependency} : d.Complete ↔ ∀ p, ¬DependencyProblem.Afflicts p (some d) := by
  constructor
  · rintro h (_ | _ | _ | _) hp
    · exact (h.source.not.1 hp.1) hp.2
    · exact h.source.1 hp.1 hp.2
    · obtain ⟨hgit, pin, hpin, hne⟩ := hp
      exact hne (h.pinned hgit pin hpin)
    · exact absurd hp (not_lt.2 h.pins)
  · intro h
    refine ⟨⟨fun hgit hpath => h .noSource ⟨hgit, hpath⟩, fun hpath => ?_⟩, ?_, ?_⟩
    · by_contra hgit
      exact h .bothSources ⟨hgit, hpath⟩
    · exact not_lt.1 (h .manyPins)
    · intro hgit pin hpin
      by_contra hne
      exact h .pinWithoutGit ⟨hgit, pin, hpin, hne⟩

theorem mem_take_iff {l : List String} {i : Nat} {name : String} :
    name ∈ l.take i ↔ ∃ j, j < i ∧ l[j]? = some name := by
  rw [List.mem_iff_getElem?]
  refine exists_congr fun j => ?_
  rw [List.getElem?_take]
  split <;> simp_all

theorem nodup_iff_not_mem_take {l : List String} :
    l.Nodup ↔ ∀ i name, l[i]? = some name → name ∉ l.take i := by
  rw [List.nodup_iff_getElem?_ne_getElem?]
  simp only [mem_take_iff, not_exists, not_and]
  constructor
  · intro h i name hi j hij hj
    have hlength : i < l.length := (List.getElem?_eq_some_iff.1 hi).1
    exact h j i hij hlength (hj.trans hi.symm)
  · intro h i j hij hj heq
    have hat : l[j]? = some l[j] := List.getElem?_eq_getElem hj
    exact h j _ hat i hij (heq.trans hat)

theorem Acceptable.not_in {d : Draft} (h : d.Acceptable) (v : Defect) : ¬Defect.In d v := by
  intro hv
  cases v with
  | unnamed => exact h.name hv
  | emptyAuthor i => exact h.authors "" (List.mem_of_getElem? hv) rfl
  | unnamedModule i =>
    obtain ⟨file, hat⟩ := hv
    exact h.moduleNames _ (List.mem_of_getElem? hat) rfl
  | moduleTwice i name =>
    obtain ⟨-, htake, file, hat⟩ := hv
    have hname : (d.modules.map Prod.fst)[i]? = some name := by simp [hat]
    rw [List.map_take] at htake
    exact nodup_iff_not_mem_take.1 h.distinct i name hname htake
  | moduleWithoutFile i name => exact h.files _ (List.mem_of_getElem? hv.2.2) rfl
  | partialEntry =>
    obtain ⟨e, he, hempty⟩ := hv
    exact hempty.elim (h.entry e he).1 (h.entry e he).2
  | dependency name p =>
    obtain ⟨dep, hdep, hp⟩ := hv
    obtain ⟨_, rfl, hcomplete⟩ := h.dependencies _ hdep
    exact complete_iff.1 hcomplete p hp

theorem acceptable_of_not_in {d : Draft} (h : ∀ v, ¬Defect.In d v) : d.Acceptable := by
  have hnames : ∀ q ∈ d.modules, q.1 ≠ "" := by
    rintro ⟨name, file⟩ hq rfl
    obtain ⟨i, hi⟩ := List.mem_iff_getElem?.1 hq
    exact h (.unnamedModule i) ⟨file, hi⟩
  have hfresh : ∀ i name file, d.modules[i]? = some (name, file) →
      name ∉ (d.modules.take i).map Prod.fst := fun i name file hi htake =>
    h (.moduleTwice i name) ⟨hnames _ (List.mem_of_getElem? hi), htake, file, hi⟩
  refine ⟨fun hn => h .unnamed hn, ?_, hnames, ?_, ?_, ?_, ?_⟩
  · rintro a ha rfl
    obtain ⟨i, hi⟩ := List.mem_iff_getElem?.1 ha
    exact h (.emptyAuthor i) hi
  · refine nodup_iff_not_mem_take.2 fun i name hi => ?_
    rw [List.getElem?_map] at hi
    obtain ⟨⟨_, file⟩, hat, rfl⟩ := Option.map_eq_some_iff.1 hi
    rw [← List.map_take]
    exact hfresh i _ file hat
  · rintro ⟨name, file⟩ hq rfl
    obtain ⟨i, hi⟩ := List.mem_iff_getElem?.1 hq
    exact h (.moduleWithoutFile i name) ⟨hnames _ hq, hfresh i name "" hi, hi⟩
  · intro e he
    exact ⟨fun hm => h .partialEntry ⟨e, he, .inl hm⟩, fun hf => h .partialEntry ⟨e, he, .inr hf⟩⟩
  · rintro ⟨name, dep⟩ hp
    have hsound : ∀ p, ¬DependencyProblem.Afflicts p dep := fun p hafflicts =>
      h (.dependency name p) ⟨dep, hp, hafflicts⟩
    cases dep with
    | none => exact absurd trivial (hsound .noSource)
    | some dep => exact ⟨dep, rfl, complete_iff.2 hsound⟩

theorem acceptable_iff {d : Draft} : d.Acceptable ↔ ∀ v, ¬Defect.In d v :=
  ⟨Acceptable.not_in, acceptable_of_not_in⟩

/-- A draft becomes a manifest exactly if it is acceptable; otherwise every defect is reported once, in
order. -/
theorem manifest_cases {d : Draft} (hd : d.dependencies.Ordered) (path : String) :
    (d.Acceptable ∧ ∃ m, d.manifest path = .ok m) ∨
    (¬d.Acceptable ∧ ∃ vs, Defect.Lists (Defect.In d) vs ∧
      d.manifest path = .error (vs.map Defect.problem)) := by
  obtain ⟨vs, hvs, hproblems⟩ := problems_list hd
  have hiff : d.Acceptable ↔ vs = [] := by
    rw [acceptable_iff, List.eq_nil_iff_forall_not_mem]
    exact forall_congr' fun v => not_congr (hvs.mem_iff v).symm
  unfold manifest
  rw [hproblems]
  by_cases hnone : vs = []
  · refine .inl ⟨hiff.2 hnone, ?_⟩
    rw [hnone]
    exact ⟨_, rfl⟩
  · refine .inr ⟨hiff.not.2 hnone, vs, hvs, ?_⟩
    rw [if_neg (by simpa using hnone)]

/-- What the manifest of a draft keeps of it. -/
theorem manifest_keeps {d : Draft} (hd : d.dependencies.Ordered) {path : String} {m : Manifest}
    (h : d.manifest path = .ok m) :
    d.Acceptable ∧ m.authors = d.authors ∧ m.modules = d.modules ∧ m.entry = d.entry ∧
      d.dependencies = m.raw := by
  obtain ⟨hacceptable, m', hm'⟩ | ⟨-, vs, -, hm'⟩ := manifest_cases hd path
  · obtain rfl := Except.ok.inj (hm'.symm.trans h)
    unfold manifest at h
    split at h
    next =>
      cases h
      refine ⟨hacceptable, rfl, rfl, rfl, ?_⟩
      have hdescribed := hacceptable.dependencies
      generalize d.dependencies = ps at hdescribed
      clear hd hacceptable
      induction ps with
      | nil => rfl
      | cons p ps ih =>
        obtain ⟨name, dep⟩ := p
        obtain ⟨⟨dep, rfl, -⟩, hps⟩ := List.forall_mem_cons.1 hdescribed
        exact congrArg _ (ih hps)
    next => cases h
  · cases hm'.symm.trans h

end Draft

end Arbor.Package
