import Arbor.Proofs.Yaml.Readings
import Arbor.Yaml.Value
import Mathlib.Data.List.Forall2

/-!
Records read from mappings that spell them out.

`Computes` says that a reading gives a value and meets no issue on the way, as long as no alias was
followed before. A mapping whose pairs are the fields of a record in some order, each at most once,
is read as the record with one field after the other taken in (`record_takesIn`).
-/

set_option autoImplicit false

namespace Arbor.Yaml

/-! ## Texts as nodes -/

/-- The node is that text. -/
def Node.isText (s : String) : Node → Bool
  | .scalar tag written _ => tag == Tag.str && written == s
  | _ => false

/-- The pairs are those names and texts. -/
def spells : List (String × String) → List (Node × Node) → Bool
  | [], [] => true
  | (name, s) :: fields, (k, v) :: pairs => k.isText name && v.isText s && spells fields pairs
  | _, _ => false

theorem Node.isText_iff {n : Node} {s : String} :
    n.isText s = true ↔ ∃ line, n = .scalar Tag.str s line := by
  cases n <;> simp [isText]

theorem spells_nil_iff {pairs : List (Node × Node)} : spells [] pairs = true ↔ pairs = [] := by
  cases pairs <;> simp [spells]

theorem spells_cons_iff {name s : String} {fields : List (String × String)}
    {pairs : List (Node × Node)} : spells ((name, s) :: fields) pairs = true ↔
      ∃ k v rest, pairs = (k, v) :: rest ∧ k.isText name = true ∧ v.isText s = true ∧
        spells fields rest = true := by
  cases pairs with
  | nil => simp [spells]
  | cons p rest =>
    constructor
    · intro h
      simp only [spells, Bool.and_eq_true] at h
      exact ⟨p.1, p.2, rest, rfl, h.1.1, h.1.2, h.2⟩
    · rintro ⟨k, v, rest', heq, hk, hv, hrest⟩
      cases heq
      simp [spells, hk, hv, hrest]

/-- If a test on the first document computes to true, there is one and it passes the test. -/
theorem document_of_any {bytes : List UInt8} {test : Node → Bool}
    (h : ((firstDocument bytes).toOption.any fun d => d.any fun s => test s.root) = true) :
    ∃ s, firstDocument bytes = .ok (some s) ∧ test s.root = true := by
  cases hread : firstDocument bytes with
  | error e =>
    rw [hread] at h
    cases h
  | ok d =>
    rw [hread] at h
    cases d with
    | none => cases h
    | some s => exact ⟨s, rfl, h⟩

namespace Reading

variable {ε σ α β : Type} {anchored : Array (Option Node)}

/-! ## Readings without issues -/

/-- No alias was followed and no issue met. -/
structure Clear (tally : Tally) : Prop where
  aliased : tally.aliased = 0
  issues : tally.issues = []

/-- The reading gives `a` and meets no issue. -/
def Computes (anchored : Array (Option Node)) (x : Reading ε α) (a : α) : Prop :=
  ∀ tally, Clear tally → ∃ tally', x anchored tally = .ok (a, tally') ∧ Clear tally'

theorem Computes.pure (a : α) : Computes anchored (pure a : Reading ε α) a :=
  fun tally h => ⟨tally, rfl, h⟩

theorem Computes.bind {x : Reading ε α} {f : α → Reading ε β} {a : α} {b : β}
    (hx : Computes anchored x a) (hf : Computes anchored (f a) b) :
    Computes anchored (x >>= f) b := by
  intro tally h
  obtain ⟨mid, hmid, hclear⟩ := hx tally h
  obtain ⟨tally', hb, hclear'⟩ := hf mid hclear
  exact ⟨tally', bind_eq_ok_iff.2 ⟨a, mid, hmid, hb⟩, hclear'⟩

theorem Computes.run {x : Reading ε α} {a : α} (h : Computes anchored x a) :
    x.run anchored = .ok a := by
  obtain ⟨tally, hx, hclear⟩ := h Tally.start ⟨rfl, rfl⟩
  exact run_eq_ok_iff.2 ⟨tally, hx, hclear.issues⟩

theorem Computes.mapM {l : List α} {bs : List β} {f : α → Reading ε β}
    (h : List.Forall₂ (fun a b => Computes anchored (f a) b) l bs) :
    Computes anchored (l.mapM f) bs := by
  induction h with
  | nil => exact .pure []
  | cons ha _ ih =>
    rw [List.mapM_cons]
    exact ha.bind (ih.bind (.pure _))

theorem visit_computes : Computes anchored (visit [] : Reading ε Unit) () := by
  intro tally h
  -- Only nodes reached through aliases can be too many.
  have hmoderate : ({ tally with visited := tally.visited + 1 } : Tally).isExcessive = false := by
    simp [Tally.isExcessive, h.aliased]
  refine ⟨{ tally with visited := tally.visited + 1 }, ?_, ⟨h.aliased, h.issues⟩⟩
  refine bind_eq_ok_iff.2 ⟨(), _, rfl, ?_⟩
  refine bind_eq_ok_iff.2 ⟨_, _, rfl, ?_⟩
  change (if ({ tally with visited := tally.visited + 1 } : Tally).isExcessive = true then malformed
    else Pure.pure () : Reading ε Unit) anchored _ = _
  rw [hmoderate]
  rfl

theorem follow_computes {n : Node} (h : n.target? #[] = some n) :
    Computes anchored (follow [] n : Reading ε (Node × Trail)) (n, []) := by
  refine visit_computes.bind ?_
  cases n with
  | scalar | sequence | mapping => exact .pure _
  | reference name id serial line => simp [Node.target?] at h

theorem text_computes {n : Node} {s : String} (h : n.isText s = true) :
    Computes anchored (text [] n : Reading ε (Option String)) (some s) := by
  obtain ⟨line, rfl⟩ := Node.isText_iff.1 h
  exact (follow_computes rfl).bind (Computes.bind (.pure (Scalar.string s)) (.pure _))

theorem fieldName_computes {n : Node} {s : String} (h : n.isText s = true) :
    Computes anchored (fieldName [] n : Reading ε (Option Scalar)) (some (.string s)) :=
  (text_computes h).bind (.pure _)

/-! ## Pairs -/

/-- The pairs have those names as their keys. -/
def NamedBy (names : List String) (pairs : List (Node × Node)) : Prop :=
  List.Forall₂ (fun name p => p.1.isText name = true) names pairs

theorem isMerge_of_isText {n : Node} {s : String} (h : n.isText s = true) : n.isMerge = false := by
  obtain ⟨line, rfl⟩ := Node.isText_iff.1 h
  simp [Node.isMerge, Tag.str, Tag.merge]

theorem identity_of_isText {n : Node} {s : String} (h : n.isText s = true) :
    n.identity = (0, s) := by
  obtain ⟨line, rfl⟩ := Node.isText_iff.1 h
  rfl

theorem NamedBy.no_merge {names : List String} {pairs : List (Node × Node)}
    (h : NamedBy names pairs) : pairs.filter (·.1.isMerge) = [] := by
  induction h with
  | nil => rfl
  | cons hk _ ih => simpa [isMerge_of_isText hk] using ih

theorem NamedBy.other_name {names : List String} {pairs : List (Node × Node)}
    (h : NamedBy names pairs) {name : String} (hname : name ∉ names) :
    pairs.filter (fun p => p.1.identity == (0, name)) = [] := by
  induction h with
  | nil => rfl
  | cons hk _ ih =>
    obtain ⟨hne, hrest⟩ := not_or.1 (mt List.mem_cons.2 hname)
    simpa [identity_of_isText hk, Ne.symm hne] using ih hrest

theorem distinctKeys_computes {names : List String} {pairs : List (Node × Node)}
    (h : NamedBy names pairs) (hdistinct : names.Nodup) :
    Computes anchored (distinctKeys pairs : Reading ε Bool) true := by
  induction h with
  | nil => exact .pure true
  | @cons name p names rest hk hrest ih =>
    obtain ⟨hname, hdistinct⟩ := List.nodup_cons.1 hdistinct
    have hagain : rest.filter (fun q => q.1.identity == p.1.identity) = [] := by
      rw [identity_of_isText hk]
      exact NamedBy.other_name hrest hname
    unfold distinctKeys
    rw [hagain]
    exact Computes.bind (.pure ()) ((ih hdistinct).bind (.pure _))

/-! ## Fields one after the other -/

/-- The pairs are fields of the record with those names; taking them in leads from one record to the
other. -/
inductive TakesIn (anchored : Array (Option Node)) (shape : Shape ε σ) :
    List String → List (Node × Node) → σ → σ → Prop
  | nil (acc : σ) : TakesIn anchored shape [] [] acc acc
  | cons {name : String} {names : List String} {k v : Node} {pairs : List (Node × Node)}
      {field : Field ε σ} {acc mid last : σ} (hk : k.isText name = true)
      (hfield : shape.fields.find? (·.name == name) = some field)
      (hput : Computes anchored (field.put [] v acc) mid)
      (hrest : TakesIn anchored shape names pairs mid last) :
      TakesIn anchored shape (name :: names) ((k, v) :: pairs) acc last

variable {shape : Shape ε σ} {names : List String} {pairs : List (Node × Node)} {acc last : σ}

theorem TakesIn.namedBy (h : TakesIn anchored shape names pairs acc last) :
    NamedBy names pairs := by
  induction h with
  | nil => exact .nil
  | cons hk _ _ _ ih => exact .cons hk ih

theorem TakesIn.text {name s : String} {k v : Node} {put : String → σ → σ}
    (hk : k.isText name = true) (hv : v.isText s = true)
    (hfield : shape.fields.find? (·.name == name) = some (textField name put))
    (hrest : TakesIn anchored shape names pairs (put s acc) last) :
    TakesIn anchored shape (name :: names) ((k, v) :: pairs) acc last :=
  .cons hk hfield ((text_computes hv).bind (.pure _)) hrest

theorem put_computes {name : String} {k v : Node} {field : Field ε σ} {mid : σ} {seen : List String}
    (hfield : shape.fields.find? (·.name == name) = some field) (hseen : name ∉ seen)
    (hput : Computes anchored (field.put [] v acc) mid) :
    Computes anchored ((fieldPlan shape).put [] (.string name) k v (acc, seen))
      (mid, name :: seen) := by
  unfold fieldPlan
  simp only [hfield]
  rw [if_neg (by simpa using hseen)]
  exact hput.bind (.pure _)

theorem ownEntries_computes (h : TakesIn anchored shape names pairs acc last)
    (hdistinct : names.Nodup) {seen : List String} (hseen : ∀ name ∈ names, name ∉ seen) :
    ∃ seen', Computes anchored (ownEntries (fieldPlan shape) [] pairs none (acc, seen))
      ((last, seen'), none) := by
  induction h generalizing seen with
  | nil => exact ⟨seen, .pure _⟩
  | @cons name names k v pairs field acc mid last hk hfield hput hrest ih =>
    obtain ⟨hname, hdistinct⟩ := List.nodup_cons.1 hdistinct
    obtain ⟨hnew, hnews⟩ := List.forall_mem_cons.1 hseen
    have hother : ∀ other ∈ names, other ∉ name :: seen := by
      intro other hother
      refine List.not_mem_cons_of_ne_of_not_mem ?_ (hnews other hother)
      rintro rfl
      exact hname hother
    obtain ⟨seen', htail⟩ := ih hdistinct hother
    refine ⟨seen', ?_⟩
    rw [ownEntries.eq_2, if_neg (by simp [isMerge_of_isText hk])]
    exact (fieldName_computes hk).bind ((put_computes hfield hnew hput).bind htail)

/-- A mapping of fields, each given once, is read as the record with all of them taken in. -/
theorem record_takesIn (h : TakesIn anchored shape names pairs acc last) (hdistinct : names.Nodup)
    (fuel : Nat) (tag : String) (line : Nat) :
    Computes anchored (record (fuel + 1) shape acc [] (.mapping tag pairs line)) (some last) := by
  refine (follow_computes rfl).bind ((distinctKeys_computes h.namedBy hdistinct).bind ?_)
  rw [if_pos rfl]
  have hnone : ∀ name ∈ names, name ∉ ([] : List String) := fun _ _ => List.not_mem_nil
  obtain ⟨seen, hown⟩ := ownEntries_computes h hdistinct hnone
  have hentries : Computes anchored (entries (fieldPlan shape) (fuel + 1) [] pairs none (acc, []))
      ((last, seen), none) := by
    rw [entries_succ]
    refine hown.bind ?_
    unfold mergeLast
    rw [h.namedBy.no_merge]
    exact .pure _
  exact hentries.bind (.pure _)

theorem records_computes {items : List Node} {rs : List σ} {fuel : Nat} {init : σ}
    (h : List.Forall₂ (fun n r => Computes anchored (record fuel shape init [] n) (some r))
      items rs)
    (tag : String) (line : Nat) :
    Computes anchored (records fuel shape init [] (.sequence tag items line)) (some rs) := by
  have hitems : Computes anchored (items.mapM (record fuel shape init [])) (rs.map some) :=
    .mapM (List.forall₂_map_right_iff.2 h)
  have hall : (rs.map some).filterMap id = rs := by
    rw [List.filterMap_map]
    exact List.filterMap_some
  refine (follow_computes rfl).bind (hitems.bind ?_)
  rw [hall]
  exact .pure _

end Reading

end Arbor.Yaml
