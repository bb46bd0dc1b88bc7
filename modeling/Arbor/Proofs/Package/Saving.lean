import Arbor.Proofs.Files.Frames
import Arbor.Proofs.Package.Entries
import Arbor.Proofs.Yaml.Records

/-!
Lockfiles that are saved and loaded again.

What is saved is the written form of a lockfile, and reading its strings back gives that form with
the date trimmed (`Lockfile.parse_spelled`). So nothing is left for the second time: the same bytes
are written again. That YAML gives back the strings it was made of is `Lockfile.Spelled`.
-/

set_option autoImplicit false

namespace Arbor

/-! ## Files that can be written -/

namespace Files.Tree

variable {t : Tree} {here path : String}

/-- A file can be written there. -/
def Writable (t : Tree) (here path : String) : Prop :=
  ∃ p, t.locate here path = .ok p ∧ t.at? p ≠ some .directory

theorem read_of_look {bytes : List UInt8} (h : t.look .open here path = .ok (.file bytes)) :
    t.read here path = .ok bytes := by
  unfold read
  rw [h]

theorem Writable.write (h : t.Writable here path) (bytes : List UInt8) :
    ∃ t', t.write here path bytes = .ok t' := by
  obtain ⟨p, hlocate, hfile⟩ := h
  unfold Tree.write
  simp only [hlocate]
  exact ⟨_, rfl⟩

/-- What is written there can be read there, and be written once more. -/
theorem Writable.written (hhere : isAbsolute here = true)
    (h : t.Writable here (absolute here path)) (bytes : List UInt8) :
    ∃ t', t.write here (absolute here path) bytes = .ok t' ∧
      t'.look .open here (absolute here path) = .ok (.file bytes) ∧
      t'.Writable here (absolute here path) := by
  obtain ⟨t', hwrite⟩ := h.write bytes
  refine ⟨t', hwrite, ?_⟩
  obtain ⟨p, hp, hpath⟩ := absolute_eq_path hhere path
  rw [hpath] at h hwrite ⊢
  cases p with
  | nil =>
    obtain ⟨q, hlocate, hfile⟩ := h
    rw [locate_path hp hlocate] at hfile
    exact absurd rfl hfile
  | cons e q =>
    obtain ⟨-, -, -, hlook⟩ := look_written hp hwrite
    obtain ⟨place, hlocate, hentry⟩ := look_eq_ok_iff.1 (hlook .open)
    refine ⟨hlook .open, place, hlocate, ?_⟩
    rw [hentry]
    exact nofun

end Files.Tree

namespace Package

open Files (absolute isAbsolute)
open Yaml Reading

/-! ## Lockfiles as nodes -/

/-- The texts a package is written as; the commit is left out if there is none. -/
def Locked.fields (p : Locked) : List (String × String) :=
  [("name", p.name), ("source", p.source)] ++
    if p.commit.isEmpty then [] else [("commit", p.commit)]

/-- The node is a mapping of the texts of the package. -/
def Locked.isSpelled (p : Locked) : Yaml.Node → Bool
  | .mapping _ pairs _ => spells p.fields pairs
  | _ => false

namespace Lockfile

variable {l : Lockfile}

/-- The nodes are the packages one after the other. -/
def areSpelled : List Locked → List Yaml.Node → Bool
  | [], [] => true
  | p :: ps, n :: ns => p.isSpelled n && areSpelled ps ns
  | _, _ => false

/-- The node is a mapping of the texts of the lockfile and the list of its packages. -/
def isSpelled (l : Lockfile) : Yaml.Node → Bool
  | .mapping _ [root, generated, tool, (packages, .sequence _ items _)] _ =>
    spells [("root", l.root), ("generated", l.generated), ("tool", l.tool)]
        [root, generated, tool] &&
      packages.isText "packages" && areSpelled (l.packages.filterMap id) items
  | _ => false

/-- The text of the lockfile is YAML, and its strings stand in it as they are. -/
def Spelled (l : Lockfile) : Prop :=
  ∃ s, firstDocument (Text.bytes l.text) = .ok (some s) ∧ l.isSpelled s.root = true

/-! ## Reading them back -/

variable {anchored : Array (Option Yaml.Node)}

theorem package_computes {p : Locked} {n : Yaml.Node} (h : p.isSpelled n = true) (fuel : Nat) :
    Computes anchored (record (fuel + 1) packageShape ⟨"", "", ""⟩ [] n) (some p) := by
  obtain ⟨name, source, commit⟩ := p
  cases n with
  | mapping tag pairs line =>
    unfold Locked.isSpelled Locked.fields at h
    obtain ⟨k₁, v₁, rest, rfl, hk₁, hv₁, h⟩ := spells_cons_iff.1 h
    obtain ⟨k₂, v₂, rest, rfl, hk₂, hv₂, h⟩ := spells_cons_iff.1 h
    split at h
    next hcommit =>
      obtain rfl := spells_nil_iff.1 h
      obtain rfl : commit = "" := String.isEmpty_iff.1 hcommit
      have htakes : TakesIn anchored packageShape ["name", "source"] [(k₁, v₁), (k₂, v₂)]
          ⟨"", "", ""⟩ ⟨name, source, ""⟩ :=
        .text hk₁ hv₁ rfl (.text hk₂ hv₂ rfl (.nil _))
      exact record_takesIn htakes (by decide) fuel tag line
    next =>
      obtain ⟨k₃, v₃, rest, rfl, hk₃, hv₃, h⟩ := spells_cons_iff.1 h
      obtain rfl := spells_nil_iff.1 h
      have htakes : TakesIn anchored packageShape ["name", "source", "commit"]
          [(k₁, v₁), (k₂, v₂), (k₃, v₃)] ⟨"", "", ""⟩ ⟨name, source, commit⟩ :=
        .text hk₁ hv₁ rfl (.text hk₂ hv₂ rfl (.text hk₃ hv₃ rfl (.nil _)))
      exact record_takesIn htakes (by decide) fuel tag line
  | scalar | sequence | reference => cases h

theorem packages_compute {ps : List Locked} {ns : List Yaml.Node} (h : areSpelled ps ns = true)
    (fuel : Nat) :
    List.Forall₂ (fun n p => Computes anchored (record (fuel + 1) packageShape ⟨"", "", ""⟩ [] n)
      (some p)) ns ps := by
  induction ps generalizing ns with
  | nil =>
    cases ns with
    | nil => exact .nil
    | cons n ns => cases h
  | cons p ps ih =>
    cases ns with
    | nil => cases h
    | cons n ns =>
      obtain ⟨hp, hps⟩ := (Bool.and_eq_true _ _).mp h
      exact .cons (package_computes hp fuel) (ih hps)

/-- The record that is read has the strings that were written. -/
theorem record_computes {n : Yaml.Node} (h : l.isSpelled n = true) (fuel : Nat) (path : String) :
    Computes anchored (record (fuel + 1) (shape (fuel + 1)) ⟨path, "", "", "", []⟩ [] n)
      (some { l with path := path, packages := (l.packages.filterMap id).map some }) := by
  unfold isSpelled at h
  split at h
  next tag root generated tool packages itemsTag items itemsLine line =>
    simp only [Bool.and_eq_true] at h
    obtain ⟨⟨htexts, hpackages⟩, hitems⟩ := h
    obtain ⟨k₁, v₁, rest, hp, hk₁, hv₁, htexts⟩ := spells_cons_iff.1 htexts
    cases hp
    obtain ⟨k₂, v₂, rest, hp, hk₂, hv₂, htexts⟩ := spells_cons_iff.1 htexts
    cases hp
    obtain ⟨k₃, v₃, rest, hp, hk₃, hv₃, -⟩ := spells_cons_iff.1 htexts
    cases hp
    have hread : List.Forall₂ (fun n p =>
        Computes anchored (record (fuel + 1) packageShape ⟨"", "", ""⟩ [] n) (some p))
        items (l.packages.filterMap id) := packages_compute hitems fuel
    have hlist := records_computes hread itemsTag itemsLine
    have htakes : TakesIn anchored (shape (fuel + 1)) ["root", "generated", "tool", "packages"]
        [(k₁, v₁), (k₂, v₂), (k₃, v₃), (packages, .sequence itemsTag items itemsLine)]
        ⟨path, "", "", "", []⟩
        { l with path := path, packages := (l.packages.filterMap id).map some } := by
      refine .text hk₁ hv₁ rfl (.text hk₂ hv₂ rfl (.text hk₃ hv₃ rfl ?_))
      refine .cons hpackages rfl ?_ (.nil _)
      exact Computes.bind hlist (.pure _)
    exact record_takesIn htakes (by decide) fuel tag line
  next => cases h

theorem parse_spelled (h : l.Spelled) (path : String) :
    parse (Text.bytes l.text) path = .ok (normalize { l with
      path := path
      generated := Text.trim l.generated
      packages := (l.packages.filterMap id).map some }) := by
  obtain ⟨s, hdoc, hroot⟩ := h
  have hdepth : s.depth ≠ 0 := Nat.mul_ne_zero (Nat.succ_ne_zero _) (Nat.succ_ne_zero _)
  obtain ⟨fuel, hfuel⟩ := Nat.exists_eq_succ_of_ne_zero hdepth
  have hread : Computes s.anchored
      (visit [] >>= fun _ => record s.depth (shape s.depth) ⟨path, "", "", "", []⟩ [] s.root)
      (some { l with path := path, packages := (l.packages.filterMap id).map some }) := by
    rw [hfuel]
    exact visit_computes.bind (record_computes hroot fuel path)
  unfold parse
  rw [hdoc]
  change (Except.mapError _ (Reading.run (visit [] >>= fun _ =>
    record s.depth (shape s.depth) ⟨path, "", "", "", []⟩ [] s.root) s.anchored) >>= _) = _
  rw [hread.run]
  rfl

/-! ## Saving and loading -/

/-- The written form of a lockfile, with the date trimmed, under a path. -/
def kept (l : Lockfile) (path : String) : Lockfile :=
  ⟨path, packageName l.root, Text.trim l.generated, Text.trim l.tool, l.entries.map some⟩

theorem kept_normalize (l : Lockfile) (path : String) : (l.kept path).normalize = l.kept path := by
  have hentries : (l.kept path).entries = l.entries := entries_normalize l
  rw [normalize, hentries]
  simp only [kept, packageName_packageName, Text.trim_trim]

theorem parse_stamped {now path : String} (hdate : l.generated ≠ "")
    (h : (l.stamped now path).Spelled) :
    parse (Text.bytes (l.stamped now path).text) path = .ok (l.kept path) := by
  have hstamped : l.stamped now path = { l.normalize with path := path } := by
    unfold stamped
    rw [if_neg (mt String.isEmpty_iff.1 hdate)]
    rfl
  have hblank : (l.entries.map some).filterMap id = l.entries := by simp
  rw [parse_spelled h, hstamped]
  change Except.ok (normalize ⟨path, packageName l.root, Text.trim l.generated, Text.trim l.tool,
    ((l.entries.map some).filterMap id).map some⟩) = _
  rw [hblank]
  exact congrArg Except.ok (kept_normalize l path)

/-- Saving a lockfile where it can be written leaves its written form there. -/
theorem save_written {t : Files.Tree} {here path : String} (now : String)
    (hhere : isAbsolute here = true) (hpath : l.target path ≠ "")
    (h : t.Writable here (absolute here (l.target path))) :
    ∃ t', l.save t here now path = (.ok t', l.stamped now (absolute here (l.target path))) ∧
      t'.look .open here (absolute here (l.target path)) =
        .ok (.file (Text.bytes (l.stamped now (absolute here (l.target path))).text)) ∧
      t'.Writable here (absolute here (l.target path)) := by
  obtain ⟨t', hwrite, hlook, hagain⟩ := h.written hhere
    (Text.bytes (l.stamped now (absolute here (l.target path))).text)
  refine ⟨t', ?_, hlook, hagain⟩
  have hwrite : t.write here (l.stamped now (absolute here (l.target path))).path _ = _ := hwrite
  rw [save_eq hpath]
  simp only [hwrite]
  rfl

/-! ## The second time -/

theorem stamped_eq_kept {now path : String} (hdate : l.generated ≠ "")
    (htrim : Text.trim l.generated = l.generated) : l.stamped now path = l.kept path := by
  unfold stamped kept
  rw [if_neg (mt String.isEmpty_iff.1 hdate), htrim]
  rfl

theorem stamped_kept {now path place : String} (hdate : Text.trim l.generated ≠ "") :
    (l.kept path).stamped now place = l.kept place := by
  have hkept : (l.kept path).generated = Text.trim l.generated := rfl
  unfold stamped
  rw [hkept, if_neg (mt String.isEmpty_iff.1 hdate)]
  exact kept_normalize l place

/-- A lockfile with a date that is saved where it can be written is loaded in its written form, in
which it is saved as the same bytes again. -/
theorem save_load (l : Lockfile) {t : Files.Tree} {here now path : String}
    (hhere : isAbsolute here = true) (hdate : l.generated ≠ "") (hpath : l.target path ≠ "")
    (hwritable : t.Writable here (absolute here (l.target path)))
    (hyaml : (l.stamped now (absolute here (l.target path))).Spelled) :
    ∃ t' saved loaded, l.save t here now path = (.ok t', saved) ∧
      load t' here (l.target path) = .ok loaded ∧
      loaded = ⟨absolute here (l.target path), packageName l.root, Text.trim l.generated,
        Text.trim l.tool, l.entries.map some⟩ ∧
      Sorts ((l.packages.filterMap id).map Locked.normalize) l.entries ∧
      isAbsolute loaded.path = true ∧
      (Text.trim l.generated = l.generated →
        t'.Writable here (absolute here (loaded.target (l.target path))) ∧
        ∀ u there later place, isAbsolute there = true →
          u.Writable there (absolute there (loaded.target place)) →
          ∃ u' again bytes, loaded.save u there later place = (.ok u', again) ∧
            u'.read there (absolute there (loaded.target place)) = .ok bytes ∧
            t'.read here loaded.path = .ok bytes) := by
  obtain ⟨t', hsave, hlook, hagain⟩ := save_written now hhere hpath hwritable
  have hload : load t' here (l.target path) = .ok (l.kept (absolute here (l.target path))) :=
    (load_eq_parse hpath hlook).trans (parse_stamped hdate hyaml)
  obtain ⟨p, -, hplace⟩ := Files.absolute_eq_path hhere (l.target path)
  have habsolute : isAbsolute (absolute here (l.target path)) = true :=
    hplace ▸ Files.isAbsolute_path p
  refine ⟨t', _, _, hsave, hload, rfl, sorts_entries l, habsolute, fun htrim => ?_⟩
  have htarget : ∀ place, (l.kept (absolute here (l.target path))).target place ≠ "" := by
    intro place
    unfold target
    split
    next => exact Files.ne_empty_of_isAbsolute habsolute
    next hplace => exact mt String.isEmpty_iff.2 hplace
  refine ⟨?_, fun u there later place hthere hu => ?_⟩
  · have hsame : (l.kept (absolute here (l.target path))).target (l.target path) = l.target path :=
      if_neg (mt String.isEmpty_iff.1 hpath)
    rwa [hsame]
  · obtain ⟨u', hsave', hlook', -⟩ := save_written later hthere (htarget place) hu
    refine ⟨u', _, _, hsave', Files.Tree.read_of_look hlook', ?_⟩
    rw [stamped_kept (htrim.symm ▸ hdate)]
    rw [stamped_eq_kept hdate htrim] at hlook
    exact Files.Tree.read_of_look hlook

/-- A lockfile whose packages are out of order and not in their written form. -/
def unwritten : Lockfile :=
  { edited with
    root := " Demo App"
    tool := "lorgn test "
    packages := some ⟨" Big Shapes", " path:../big", "c0ffee "⟩ :: edited.packages }

set_option maxRecDepth 100000 in
theorem unwritten_spelled : (unwritten.stamped "" "/lorgn.lock").Spelled :=
  document_of_any (by decide +kernel)

theorem save_load_unwritten : ∃ files again loaded bytes,
    (unwritten.save .empty "/" "" "lorgn.lock").1 = .ok files ∧
    load files "/" "lorgn.lock" = .ok loaded ∧
    loaded = ⟨"/lorgn.lock", "demo_app", "then", "lorgn test",
      [some ⟨"big_shapes", "path:../big", "c0ffee"⟩, some ⟨"colors", "path:../colors", ""⟩,
        some ⟨"shapes", "path:../shapes", ""⟩, some ⟨"shapes", "git:shapes", "abc"⟩]⟩ ∧
    (loaded.save files "/" "later" "lorgn.lock").1 = .ok again ∧
    files.read "/" "/lorgn.lock" = .ok bytes ∧ again.read "/" "/lorgn.lock" = .ok bytes := by
  have hhere : isAbsolute "/" = true := by decide +kernel
  have hplace : ∀ l : Lockfile, absolute "/" (l.target "lorgn.lock") = "/lorgn.lock" := fun l => by
    change absolute "/" "lorgn.lock" = _
    decide +kernel
  have hwritable :
      Files.Tree.empty.Writable "/" (absolute "/" (unwritten.target "lorgn.lock")) := by
    rw [hplace]
    exact ⟨["lorgn.lock"], by decide +kernel, by decide +kernel⟩
  have hyaml : (unwritten.stamped "" (absolute "/" (unwritten.target "lorgn.lock"))).Spelled := by
    rw [hplace]
    exact unwritten_spelled
  obtain ⟨files, saved, loaded, hsave, hload, hloaded, -, -, hagain⟩ :=
    save_load unwritten hhere (by decide) (by decide) hwritable hyaml
  obtain ⟨hwritable', hsame⟩ := hagain (by decide +kernel)
  obtain ⟨again, saved', bytes, hsave', hread', hread⟩ :=
    hsame files "/" "later" "lorgn.lock" hhere hwritable'
  rw [hplace] at hread'
  refine ⟨files, again, loaded, bytes, congrArg Prod.fst hsave, hload, ?_,
    congrArg Prod.fst hsave', ?_, hread'⟩
  · rw [hloaded, hplace]
    decide +kernel
  · rw [hloaded, hplace] at hread
    exact hread

end Lockfile

end Package

end Arbor
