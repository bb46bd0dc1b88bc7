import Arbor.Proofs.Session.Locks

/-!
What a path leads to after any number of registrations.

Overwriting happens twice: a module replaces the one that was registered under its name, and within
a module a function replaces the one that was there under its name. `Latest` says which element of a
list counts then, and `Item.Binds` what one item contributes; the order of tables, the folds that
build them and the registry come in only through `Library.function?_latest` and
`Registry.module?_latest`. `found_by_latest` puts the two together.
-/

set_option autoImplicit false

namespace Arbor

variable {σ : Type}

/-! ## The last element with a property -/

/-- The element has the property, and none after it has. -/
def Latest {α : Type} (P : α → Prop) (xs : List α) (x : α) : Prop :=
  ∃ before after, xs = before ++ x :: after ∧ P x ∧ ∀ y ∈ after, ¬ P y

theorem exists_latest {α : Type} {P : α → Prop} {xs : List α} (h : ∃ x ∈ xs, P x) :
    ∃ x, Latest P xs x := by
  induction xs with
  | nil => simp at h
  | cons y ys ih =>
    by_cases hys : ∃ x ∈ ys, P x
    · obtain ⟨x, before, after, hsplit, hx⟩ := ih hys
      exact ⟨x, y :: before, after, by rw [hsplit, List.cons_append], hx⟩
    · obtain ⟨x, hx, hP⟩ := h
      obtain rfl | hmem := List.mem_cons.1 hx
      · exact ⟨x, [], ys, rfl, hP, fun z hz hz' => hys ⟨z, hz, hz'⟩⟩
      · exact absurd ⟨x, hmem, hP⟩ hys

theorem Latest.holds {α : Type} {P : α → Prop} {xs : List α} {x : α} (h : Latest P xs x) : P x := by
  obtain ⟨-, -, -, hx, -⟩ := h
  exact hx

theorem Latest.map {α β : Type} {P : α → Prop} {Q : β → Prop} {f : α → β} {xs : List α} {x : α}
    (h : Latest P xs x) (hf : ∀ y, Q (f y) ↔ P y) : Latest Q (xs.map f) (f x) := by
  obtain ⟨before, after, rfl, hx, hafter⟩ := h
  refine ⟨before.map f, after.map f, by rw [List.map_append, List.map_cons], (hf x).2 hx, ?_⟩
  intro z hz
  obtain ⟨y, hy, rfl⟩ := List.mem_map.1 hz
  exact fun hQ => hafter y hy ((hf y).1 hQ)

/-- A look-up into what is folded up is decided by the latest element that sets it, if each other
element leaves it. -/
theorem Latest.foldl {α β γ : Type} {P : α → Prop} {step : β → α → β} {value : γ} {xs : List α}
    {x : α} (h : Latest P xs x) (look : β → γ) (hset : ∀ b, look (step b x) = value)
    (hleave : ∀ b y, ¬ P y → look (step b y) = look b) (b : β) :
    look (xs.foldl step b) = value := by
  obtain ⟨before, after, rfl, -, hafter⟩ := h
  rw [List.foldl_append, List.foldl_cons]
  generalize hc : step (before.foldl step b) x = c
  have hlook : look c = value := hc ▸ hset _
  clear hc
  induction after generalizing c with
  | nil => exact hlook
  | cons y ys ih =>
    refine ih (fun z hz => hafter z (List.mem_cons_of_mem y hz)) (step c y) ?_
    rw [hleave c y (hafter y List.mem_cons_self), hlook]

theorem foldl_leave {α β γ : Type} {step : β → α → β} {xs : List α} (look : β → γ)
    (hleave : ∀ b, ∀ y ∈ xs, look (step b y) = look b) (b : β) :
    look (xs.foldl step b) = look b := by
  induction xs generalizing b with
  | nil => rfl
  | cons y ys ih =>
    rw [List.foldl_cons, ih (fun c z hz => hleave c z (List.mem_cons_of_mem y hz)),
      hleave b y List.mem_cons_self]

/-- A property that each element may give and none takes away. -/
theorem foldl_gather {α β : Type} {P : α → Prop} {Q : β → Prop} {step : β → α → β}
    (hstep : ∀ b x, Q (step b x) ↔ P x ∨ Q b) (xs : List α) (b : β) :
    Q (xs.foldl step b) ↔ (∃ x ∈ xs, P x) ∨ Q b := by
  induction xs generalizing b with
  | nil => simp
  | cons x xs ih =>
    rw [List.foldl_cons, ih, hstep]
    simp only [List.mem_cons, exists_eq_or_imp]
    rw [or_left_comm, or_assoc]

/-! ## Modules out of parts -/

/-- What is put into a module: an item of a tree, or a function that the host brings along. -/
inductive Part where
  | item (i : Item)
  | function (name : String) (f : Function)

namespace Part

/-- The part gives a name this function. -/
inductive Binds : Part → String → Function → Prop where
  | define (d : Definition) : Binds (.item (.define d)) d.name (.defined d.parameters d.body)
  | imports {module name : String} {names : List String} : name ∈ names →
      Binds (.item (.imports module names)) name (.imported ⟨module, name⟩)
  | function (name : String) (f : Function) : Binds (.function name f) name f

/-- The part exports the name. -/
inductive Exports : Part → String → Prop where
  | exports {name : String} {names : List String} : name ∈ names →
      Exports (.item (.exports names)) name

/-- The part exports something, and does nothing else. -/
def isExport : Part → Bool
  | item (.exports _) => true
  | _ => false

end Part

namespace Library

def addPart (l : Library) : Part → Library
  | .item i => l.addItem i
  | .function name f => l.add name f

def build (name : String) (parts : List Part) : Library := parts.foldl addPart (empty name)

theorem ofModule_eq_build (name : String) (m : Option Module) :
    ofModule name m = build name ((m.elim [] Module.items).map .item) := by
  cases m with
  | none => rfl
  | some m =>
    rw [build, List.foldl_map]
    rfl

/-! ### One part -/

theorem function?_exportName (l : Library) (name item : String) :
    (l.exportName name).function? item = l.function? item := rfl

theorem function?_addExports (l : Library) (names : List String) (item : String) :
    (l.addItem (.exports names)).function? item = l.function? item :=
  foldl_leave (·.function? item) (fun b name _ => function?_exportName b name item) l

theorem function?_addImports (l : Library) (module : String) (names : List String) (item : String) :
    (l.addItem (.imports module names)).function? item =
      if item ∈ names then some (.imported ⟨module, item⟩) else l.function? item := by
  have hleave (b : Library) (name : String) (hne : ¬ name = item) :
      (b.add name (.imported ⟨module, name⟩)).function? item = b.function? item := by
    rw [function?_add, if_neg hne]
  split
  · next hmem =>
    obtain ⟨name, hlatest⟩ := exists_latest (P := (· = item)) ⟨item, hmem, rfl⟩
    refine hlatest.foldl (·.function? item) (fun b => ?_) hleave l
    obtain rfl : name = item := hlatest.holds
    rw [function?_add, if_pos rfl]
  · next hmem =>
    exact foldl_leave (·.function? item)
      (fun b name hname => hleave b name fun h => hmem (h ▸ hname)) l

theorem function?_of_binds {p : Part} {item : String} {f : Function} (h : p.Binds item f)
    (l : Library) : (l.addPart p).function? item = some f := by
  cases h with
  | define d => exact (function?_add ..).trans (if_pos rfl)
  | imports hmem => exact (function?_addImports ..).trans (if_pos hmem)
  | function name f => exact (function?_add ..).trans (if_pos rfl)

theorem function?_of_not_binds {p : Part} {item : String} (h : ¬ ∃ f, p.Binds item f)
    (l : Library) : (l.addPart p).function? item = l.function? item := by
  cases p with
  | function name f =>
    refine (function?_add ..).trans (if_neg ?_)
    rintro rfl
    exact h ⟨f, .function name f⟩
  | item i =>
    cases i with
    | define d =>
      refine (function?_add ..).trans (if_neg ?_)
      rintro rfl
      exact h ⟨_, .define d⟩
    | exports names => exact function?_addExports l names item
    | imports module names =>
      exact (function?_addImports ..).trans (if_neg fun hmem => h ⟨_, .imports hmem⟩)

/-! ### All parts -/

theorem function?_latest {parts : List Part} {item : String} {p : Part} {f : Function}
    (hp : Latest (fun p => ∃ f, p.Binds item f) parts p) (hf : p.Binds item f) (name : String) :
    (build name parts).function? item = some f :=
  hp.foldl (·.function? item) (function?_of_binds hf)
    (fun b _ hq => function?_of_not_binds hq b) _

theorem function?_eq_none_iff (name : String) {item : String} {parts : List Part} :
    (build name parts).function? item = none ↔ ∀ p ∈ parts, ∀ f, ¬ p.Binds item f := by
  constructor
  · intro h p hp f hf
    obtain ⟨q, hq⟩ := exists_latest (P := fun p => ∃ f, Part.Binds p item f) ⟨p, hp, f, hf⟩
    obtain ⟨g, hg⟩ := hq.holds
    rw [function?_latest hq hg] at h
    cases h
  · intro h
    exact foldl_leave (·.function? item)
      (fun b p hp => function?_of_not_binds (fun ⟨f, hf⟩ => h p hp f hf) b) (empty name)

theorem function?_eq_some_iff (name : String) {item : String} {parts : List Part} {f : Function} :
    (build name parts).function? item = some f ↔
      ∃ p, Latest (fun p => ∃ g, p.Binds item g) parts p ∧ p.Binds item f := by
  constructor
  · intro h
    have hbound : ∃ p ∈ parts, ∃ g, p.Binds item g := by
      by_contra hno
      rw [(function?_eq_none_iff name).2 fun p hp g hg => hno ⟨p, hp, g, hg⟩] at h
      cases h
    obtain ⟨p, hp⟩ := exists_latest hbound
    obtain ⟨g, hg⟩ := hp.holds
    rw [function?_latest hp hg] at h
    cases h
    exact ⟨p, hp, hg⟩
  · rintro ⟨p, hp, hf⟩
    exact function?_latest hp hf name

/-! ### What a module lists -/

/-- The tables of the module list their names in order. -/
structure Listed (l : Library) : Prop where
  functions : Table.Ordered l.functions
  exported : Table.Ordered l.exported

theorem Listed.add {l : Library} (h : l.Listed) (name : String) (f : Function) :
    (l.add name f).Listed :=
  ⟨h.functions.insert name f, h.exported⟩

theorem Listed.exportName {l : Library} (h : l.Listed) (name : String) : (l.exportName name).Listed :=
  ⟨h.functions, h.exported.insert name ()⟩

theorem Listed.foldl {α : Type} {step : Library → α → Library}
    (hstep : ∀ l x, Listed l → (step l x).Listed) {l : Library} (h : l.Listed) (xs : List α) :
    (xs.foldl step l).Listed := by
  induction xs generalizing l with
  | nil => exact h
  | cons x xs ih => exact ih (hstep l x h)

theorem Listed.addPart {l : Library} (h : l.Listed) (p : Part) : (l.addPart p).Listed := by
  cases p with
  | function name f => exact h.add name f
  | item i =>
    cases i with
    | define d => exact h.add d.name _
    | exports names => exact Listed.foldl (fun _ name hl => hl.exportName name) h names
    | imports module names => exact Listed.foldl (fun _ name hl => hl.add name _) h names

theorem listed_build (name : String) (parts : List Part) : (build name parts).Listed :=
  Listed.foldl (fun _ p h => h.addPart p) (l := empty name) ⟨.nil, .nil⟩ parts

theorem isExported_exportName (l : Library) (name other : String) :
    (l.exportName name).isExported other = true ↔ name = other ∨ l.isExported other = true := by
  have hfind := Table.find?_insert l.exported name other ()
  unfold isExported Table.contains exportName
  dsimp only
  rw [hfind]
  by_cases hname : name = other
  · simp [hname]
  · simp [hname]

theorem isExported_addPart (name : String) (l : Library) (p : Part) :
    (l.addPart p).isExported name = true ↔ p.Exports name ∨ l.isExported name = true := by
  -- Only the first sort of part has a name to export.
  have hnot (h : ¬ p.Exports name) (heq : (l.addPart p).isExported name = l.isExported name) :
      (l.addPart p).isExported name = true ↔ p.Exports name ∨ l.isExported name = true := by
    rw [heq]
    exact (or_iff_right h).symm
  cases p with
  | function other f => exact hnot nofun rfl
  | item i =>
    cases i with
    | exports names =>
      have hnames : Part.Exports (.item (.exports names)) name ↔ ∃ other ∈ names, other = name :=
        ⟨fun | .exports hmem => ⟨name, hmem, rfl⟩, fun ⟨_, hmem, heq⟩ => .exports (heq ▸ hmem)⟩
      rw [hnames]
      exact foldl_gather (Q := fun b => b.isExported name = true)
        (fun b other => isExported_exportName b other name) names l
    | define d => exact hnot nofun rfl
    | imports module names =>
      have hadd (b : Library) (other : String) :
          (b.add other (.imported ⟨module, other⟩)).isExported name = b.isExported name := rfl
      exact hnot nofun (foldl_leave (·.isExported name) (fun b other _ => hadd b other) l)

theorem mem_exports_iff {name item : String} {parts : List Part} :
    item ∈ (build name parts).exports ↔ ∃ p ∈ parts, p.Exports item := by
  have hgather := foldl_gather (Q := fun b => b.isExported item = true) (isExported_addPart item)
    parts (empty name)
  rw [exports, ← Table.find?_isSome_iff]
  exact hgather.trans (or_iff_left Bool.false_ne_true)

theorem mem_functionNames_iff {name item : String} {parts : List Part} :
    item ∈ (build name parts).functionNames ↔ ∃ p ∈ parts, ∃ f, p.Binds item f := by
  rw [functionNames, ← Table.find?_isSome_iff, ← Option.ne_none_iff_isSome]
  refine (not_congr (function?_eq_none_iff name)).trans ?_
  simp only [not_forall, not_not, exists_prop]

theorem function?_addPart_congr {l l' : Library} {item : String}
    (h : l.function? item = l'.function? item) (p : Part) :
    (l.addPart p).function? item = (l'.addPart p).function? item := by
  by_cases hp : ∃ f, p.Binds item f
  · obtain ⟨f, hf⟩ := hp
    rw [function?_of_binds hf, function?_of_binds hf]
  · rw [function?_of_not_binds hp, function?_of_not_binds hp, h]

theorem function?_without_exports (name item : String) (parts : List Part) :
    (build name (parts.filter (!·.isExport))).function? item = (build name parts).function? item := by
  have hleave (p : Part) (h : p.isExport = true) (l : Library) :
      (l.addPart p).function? item = l.function? item := by
    refine function?_of_not_binds ?_ l
    rintro ⟨f, hf⟩
    cases hf <;> cases h
  have hfold (l l' : Library) (h : l.function? item = l'.function? item) :
      ((parts.filter (!·.isExport)).foldl addPart l).function? item =
        (parts.foldl addPart l').function? item := by
    induction parts generalizing l l' with
    | nil => exact h
    | cons p parts ih =>
      cases hp : p.isExport with
      | true =>
        rw [List.filter_cons_of_neg (by simp [hp])]
        exact ih l _ (h.trans (hleave p hp l').symm)
      | false =>
        rw [List.filter_cons_of_pos (by simp [hp])]
        exact ih _ _ (function?_addPart_congr h p)
  exact hfold _ _ rfl

end Library

/-! ## Registrations -/

/-- A module is registered: loaded from a tree, or put together by the host. -/
inductive Registration where
  | load (name : String) (m : Option Module)
  | register (name : String) (parts : List Part)

namespace Registration

def name : Registration → String
  | load name _ | register name _ => name

def parts : Registration → List Part
  | load _ m => (m.elim [] Module.items).map .item
  | register _ parts => parts

/-- The registration without the parts that only export. -/
def withoutExports (r : Registration) : Registration :=
  .register r.name (r.parts.filter (!·.isExport))

def run (s : Session σ) : Registration → Session σ
  | load name m => s.load name m
  | register name parts => s.register (Library.build name parts)

theorem run_eq_register (s : Session σ) (r : Registration) :
    r.run s = s.register (Library.build r.name r.parts) := by
  cases r with
  | load name m =>
    rw [run, Session.load, Library.ofModule_eq_build]
    rfl
  | register name parts => rfl

end Registration

namespace Library

theorem name_addPart (l : Library) (p : Part) : (l.addPart p).name = l.name := by
  cases p with
  | function other f => rfl
  | item i =>
    cases i with
    | define d => rfl
    | exports names =>
      have hexport (b : Library) (other : String) : (b.exportName other).name = b.name := rfl
      exact foldl_leave Library.name (fun b other _ => hexport b other) l
    | imports module names =>
      have hadd (b : Library) (other : String) :
          (b.add other (.imported ⟨module, other⟩)).name = b.name := rfl
      exact foldl_leave Library.name (fun b other _ => hadd b other) l

theorem name_build (name : String) (parts : List Part) : (build name parts).name = name :=
  foldl_leave Library.name (fun b p _ => name_addPart b p) (empty name)

end Library

namespace Registry

/-- The registry after registrations into an empty one. -/
def after (rs : List Registration) : Registry :=
  rs.foldl (fun r g => r.register (Library.build g.name g.parts)) empty

theorem after_concat (rs : List Registration) (g : Registration) :
    after (rs ++ [g]) = (after rs).register (Library.build g.name g.parts) := by
  rw [after, List.foldl_append]
  rfl

theorem module?_leave {g : Registration} {name : String} (hne : g.name ≠ name) (r : Registry) :
    (r.register (Library.build g.name g.parts)).module? name = r.module? name := by
  rw [module?_register, if_neg (Library.name_build .. ▸ hne)]

theorem module?_latest {rs : List Registration} {name : String} {g : Registration}
    (h : Latest (·.name = name) rs g) :
    (after rs).module? name = some (Library.build name g.parts) := by
  refine h.foldl (·.module? name) (fun r => ?_) (fun r g' hne => module?_leave hne r) empty
  obtain rfl : g.name = name := h.holds
  rw [module?_register, if_pos (Library.name_build ..)]

theorem module?_eq_none {rs : List Registration} {name : String} (h : ∀ g ∈ rs, g.name ≠ name) :
    (after rs).module? name = none :=
  foldl_leave (·.module? name) (fun r g hg => module?_leave (h g hg) r) empty

theorem resolve_of_module? {r : Registry} {path : Path} {l : Library}
    (h : r.module? path.module = some l) :
    r.resolve path = (l.function? path.item).elim (.error (.unboundFunction path)) .ok := by
  unfold resolve
  rw [h]
  dsimp only
  cases l.function? path.item <;> rfl

theorem resolve_unknown_iff {rs : List Registration} {path : Path} :
    (after rs).resolve path = .error (.unknownModule path.module) ↔
      ∀ g ∈ rs, g.name ≠ path.module := by
  constructor
  · intro h g hg hname
    obtain ⟨g', hlatest⟩ := exists_latest (P := (·.name = path.module)) ⟨g, hg, hname⟩
    rw [resolve_of_module? (module?_latest hlatest)] at h
    cases hf : (Library.build path.module g'.parts).function? path.item with
    | none =>
      rw [hf] at h
      cases h
    | some f =>
      rw [hf] at h
      cases h
  · intro h
    unfold resolve
    rw [module?_eq_none h]

theorem resolve_unbound_iff {rs : List Registration} {path : Path} {g : Registration}
    (h : Latest (·.name = path.module) rs g) :
    (after rs).resolve path = .error (.unboundFunction path) ↔
      ∀ p ∈ g.parts, ∀ f, ¬ p.Binds path.item f := by
  rw [resolve_of_module? (module?_latest h), ← Library.function?_eq_none_iff path.module]
  cases (Library.build path.module g.parts).function? path.item with
  | none => exact iff_of_true rfl rfl
  | some f => exact iff_of_false nofun nofun

theorem resolve_ok_iff {rs : List Registration} {path : Path} {g : Registration} {f : Function}
    (h : Latest (·.name = path.module) rs g) :
    (after rs).resolve path = .ok f ↔
      ∃ p, Latest (fun p => ∃ f, p.Binds path.item f) g.parts p ∧ p.Binds path.item f := by
  rw [resolve_of_module? (module?_latest h),
    ← Library.function?_eq_some_iff path.module]
  cases (Library.build path.module g.parts).function? path.item with
  | none => exact iff_of_false nofun nofun
  | some f' =>
    rw [Option.some.injEq]
    exact Except.ok.injEq f' f ▸ Iff.rfl

theorem resolve_without_exports (rs : List Registration) (path : Path) :
    (after (rs.map Registration.withoutExports)).resolve path = (after rs).resolve path := by
  by_cases h : ∃ g ∈ rs, g.name = path.module
  · obtain ⟨g, hlatest⟩ := exists_latest h
    have hmapped : Latest (·.name = path.module) (rs.map Registration.withoutExports)
        g.withoutExports := hlatest.map fun _ => Iff.rfl
    rw [resolve_of_module? (module?_latest hlatest), resolve_of_module? (module?_latest hmapped)]
    exact congrArg (Option.elim · _ _) (Library.function?_without_exports ..)
  · have hnone : ∀ g ∈ rs, g.name ≠ path.module := fun g hg hname => h ⟨g, hg, hname⟩
    rw [resolve_unknown_iff.2 hnone, resolve_unknown_iff]
    intro g' hg'
    obtain ⟨g, hg, rfl⟩ := List.mem_map.1 hg'
    exact hnone g hg

end Registry

namespace Session

/-- A session comes to another by any operations, of which these are the registrations. -/
inductive Runs : Session σ → List Registration → Session σ → Prop where
  | refl (s : Session σ) : Runs s [] s
  | registration {s t : Session σ} {rs : List Registration} (r : Registration) :
      Runs s rs t → Runs s (rs ++ [r]) (r.run t)
  | other {s t u : Session σ} {rs : List Registration} :
      Runs s rs t → Step t u → u.machine.registry = t.machine.registry → Runs s rs u

theorem Runs.registry {s t : Session σ} {rs : List Registration} (h : Runs s rs t)
    (hs : s.machine.registry = Registry.empty) : t.machine.registry = Registry.after rs := by
  induction h with
  | refl => exact hs
  | registration r _ ih =>
    rw [Registration.run_eq_register, Registry.after_concat, ← ih]
    rfl
  | other _ _ hsame ih => rw [hsame, ih]

/-- With nothing in use, nothing that a path leads to is refused. -/
theorem acquire_free (r : Registry) (path : Path) :
    r.acquire path [] = (r.resolve path).map fun f => (f, f.locks) := by
  cases hf : r.resolve path with
  | error c =>
    unfold Registry.acquire
    rw [hf]
    rfl
  | ok f =>
    rw [Registry.acquire_of_resolve hf]
    cases f <;> rfl

variable {s : Session σ} {path : Path}

theorem find_of_free (h : s.world.held = []) : (s.find path).map (·.1) =
    (s.machine.registry.resolve path).map fun f => ⟨f, path, f.kind == .native⟩ := by
  rw [find, h, acquire_free]
  cases s.machine.registry.resolve path <;> rfl

theorem find_error_iff_of_free (h : s.world.held = []) {c : Cause} :
    s.find path = .error c ↔ s.machine.registry.resolve path = .error c := by
  rw [find_error_iff, h, acquire_free]
  cases s.machine.registry.resolve path with
  | error c' => simp only [Except.map, Except.error.injEq]
  | ok f => exact iff_of_false nofun nofun

theorem find_ok_iff_of_free (h : s.world.held = []) {f : Function} :
    (∃ g t, s.find path = .ok (g, t) ∧ g.function = f) ↔ s.machine.registry.resolve path = .ok f := by
  rw [find, h, acquire_free]
  cases s.machine.registry.resolve path with
  | error c => exact iff_of_false (fun ⟨_, _, hg, _⟩ => nomatch hg) nofun
  | ok f' =>
    constructor
    · rintro ⟨g, t, hg, rfl⟩
      cases hg
      rfl
    · intro hf
      cases hf
      exact ⟨_, _, rfl, rfl⟩

/-- What a path leads to is decided by the last module that was registered under its name, and in it
by the last part that binds its item. What only exports decides nothing. -/
theorem found_by_latest {t : Session σ} {rs : List Registration} (path : Path)
    (hs : s.machine.registry = Registry.empty) (hrun : Runs s rs t) (hheld : t.world.held = []) :
    (t.find path = .error (.unknownModule path.module) ↔ ∀ r ∈ rs, r.name ≠ path.module) ∧
    (∀ r, Latest (·.name = path.module) rs r →
      (t.find path = .error (.unboundFunction path) ↔
        ∀ p ∈ r.parts, ∀ f, ¬ p.Binds path.item f) ∧
      (∀ f, (∃ g u, t.find path = .ok (g, u) ∧ g.function = f) ↔
        ∃ p, Latest (fun p => ∃ f, p.Binds path.item f) r.parts p ∧ p.Binds path.item f) ∧
      ∃ l, t.machine.registry.module? path.module = some l ∧
        l.exports.Pairwise (· < ·) ∧ (∀ item, item ∈ l.exports ↔ ∃ p ∈ r.parts, p.Exports item) ∧
        l.functionNames.Pairwise (· < ·) ∧
        ∀ item, item ∈ l.functionNames ↔ ∃ p ∈ r.parts, ∃ f, p.Binds item f) ∧
    ∀ t' : Session σ, Runs s (rs.map Registration.withoutExports) t' → t'.world.held = [] →
      (t'.find path).map (·.1) = (t.find path).map (·.1) := by
  have hregistry := hrun.registry hs
  refine ⟨?_, fun r hr => ⟨?_, fun f => ?_, ?_⟩, fun t' hrun' hheld' => ?_⟩
  · rw [find_error_iff_of_free hheld, hregistry]
    exact Registry.resolve_unknown_iff
  · rw [find_error_iff_of_free hheld, hregistry]
    exact Registry.resolve_unbound_iff hr
  · rw [find_ok_iff_of_free hheld, hregistry]
    exact Registry.resolve_ok_iff hr
  · have hlisted := Library.listed_build path.module r.parts
    rw [hregistry, Registry.module?_latest hr]
    exact ⟨_, rfl, hlisted.exported, fun _ => Library.mem_exports_iff, hlisted.functions,
      fun _ => Library.mem_functionNames_iff⟩
  · rw [find_of_free hheld, find_of_free hheld', hregistry, hrun'.registry hs,
      Registry.resolve_without_exports]

/-! An instance: `m` is loaded with a function `f`, and then registered again with an import of that
name after a native function of that name. -/

def importing : Part := .item (.imports "n" ["f", "g"])

def replacing : List Registration :=
  [.load "m" (some ⟨[.exports ["f"], .define ⟨"f", ["x"], none⟩]⟩),
    .register "m" [.function "f" (.native 0 0 true), importing, .item (.exports ["h", "f"])]]

theorem found_by_latest_replaced :
    let s : Session Unit := start Registry.empty (fun _ _ => .reply .none) false ()
    ∃ t, Runs s replacing t ∧ t.world.held = [] ∧
      (∃ g u, t.find ⟨"m", "f"⟩ = .ok (g, u) ∧ g.function = .imported ⟨"n", "f"⟩) ∧
      t.find ⟨"k", "f"⟩ = .error (.unknownModule "k") := by
  intro s
  have hrun : Runs s replacing _ := .registration _ (.registration _ (.refl s))
  have hlatest : Latest (·.name = "m") replacing _ := ⟨[_], [], rfl, rfl, nofun⟩
  have hbinds : importing.Binds "f" (.imported ⟨"n", "f"⟩) := .imports List.mem_cons_self
  refine ⟨_, hrun, rfl, ?_, ?_⟩
  · have hpart := ((found_by_latest ⟨"m", "f"⟩ rfl hrun rfl).2.1 _ hlatest).2.1 (.imported ⟨"n", "f"⟩)
    refine hpart.2 ⟨importing, ⟨[_], [_], rfl, ⟨_, hbinds⟩, ?_⟩, hbinds⟩
    rintro p hp ⟨f, hf⟩
    cases List.mem_singleton.1 hp
    cases hf
  · refine (found_by_latest ⟨"k", "f"⟩ rfl hrun rfl).1.2 fun r hr => ?_
    have hname : r.name = "m" := by
      obtain rfl | hr := List.mem_cons.1 hr
      · rfl
      · cases List.mem_singleton.1 hr
        rfl
    rw [hname]
    decide

end Session

end Arbor
