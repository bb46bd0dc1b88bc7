import Arbor.Proofs.Eval.Bindings
import Mathlib.Data.List.Infix
import Mathlib.Logic.Function.Basic

/-!
Scopes as a list of environments.

An environment says of every name what it stands for. A stack of frames stands for a list of
environments, each of which lets show through what is below it or not, and `Level.view` is what
names stand for on top of them.

* `step_levels`: each operation does on frames what it does on environments, with the same answer.
* `view_insert`: binding a name changes the view at that name only.
* `run_above`: as long as a frame is not popped, nothing happens to what is below it.
* `get?_seed_eq_some_iff`: of several values for one name the last one is bound.
-/

set_option autoImplicit false

namespace Arbor

/-- What names stand for. -/
abbrev Environment := String → Option Value

/-- One environment of a list. -/
structure Level where
  bindings : Environment
  /-- Whether what is below shows through where nothing is bound. -/
  bubbles : Bool

inductive ScopeOp where
  | push (names : List String) (values : List Value) (bubbles : Bool)
  | pop
  | insert (name : String) (value : Value)
  | lookup (name : String)

/-- What operations on scopes answer. -/
inductive ScopeAnswer where
  | done
  | inserted (success : Bool)
  | found (value : Option Value)

/-- One operation after the other, with all their answers. -/
def runAll {S O A : Type} (step : S → O → A × S) : S → List O → List A × S
  | s, [] => ([], s)
  | s, o :: os =>
    let (a, t) := step s o
    let (as, u) := runAll step t os
    (a :: as, u)

namespace Level

/-- What names stand for on top of environments. -/
def view : List Level → Environment
  | [], _ => none
  | l :: below, name => (l.bindings name).or (if l.bubbles then view below name else none)

/-- The environment in which each name stands for the last value it is paired with. -/
def paired (names : List String) (values : List Value) : Environment :=
  fun name => (names.zip values).reverse.lookup name

def step : List Level → ScopeOp → ScopeAnswer × List Level
  | ls, .push names values bubbles => (.done, ⟨paired names values, bubbles⟩ :: ls)
  | ls, .pop => (.done, ls.tail)
  | [], .insert _ _ => (.inserted false, [])
  | l :: below, .insert name v =>
    (.inserted true, ⟨Function.update l.bindings name (some v), l.bubbles⟩ :: below)
  | ls, .lookup name => (.found (view ls name), ls)

end Level

/-! ## Frames as environments -/

def Frame.level (f : Frame) : Level := ⟨f.get?, f.bubbles⟩

namespace Scopes

/-- The environments that the frames stand for, the top one first. -/
def levels (s : Scopes) : List Level := s.frames.map Frame.level

def step (s : Scopes) : ScopeOp → ScopeAnswer × Scopes
  | .push names values bubbles => (.done, s.push (Frame.seed names values bubbles))
  | .pop => (.done, s.pop)
  | .insert name v =>
    match s.insert? name v with
    | none => (.inserted false, s)
    | some t => (.inserted true, t)
  | .lookup name => (.found (s.lookup? name), s)

end Scopes

theorem Frame.get?_seed (names : List String) (values : List Value) (bubbles : Bool) :
    (Frame.seed names values bubbles).get? = Level.paired names values := by
  funext name
  have h := Table.find?_foldl_insert_eq (names.zip values) [] name
  rwa [Table.find?, Option.or_none] at h

/-- A frame binds a name to the value at its last position among the pairs it is seeded with. -/
theorem Frame.get?_seed_eq_some_iff {names : List String} {values : List Value} {bubbles : Bool}
    {name : String} {v : Value} :
    (Frame.seed names values bubbles).get? name = some v ↔
      ∃ before after, names.zip values = before ++ (name, v) :: after ∧
        name ∉ after.map Prod.fst := by
  constructor
  · rw [Frame.get?_seed, Level.paired, List.lookup_eq_some_iff]
    rintro ⟨after, before, hsplit, hafter⟩
    refine ⟨before.reverse, after.reverse, ?_, ?_⟩
    · rw [← List.reverse_reverse (names.zip values), hsplit]
      simp
    · intro hmem
      obtain ⟨p, hp, rfl⟩ := List.mem_map.1 hmem
      simpa using hafter p (List.mem_reverse.1 hp)
  · rintro ⟨before, after, hsplit, hafter⟩
    rw [Frame.seed, Frame.get?, hsplit]
    exact Table.find?_ofPairs before after hafter

theorem Frame.level_insert (f : Frame) (name : String) (v : Value) :
    (f.insert name v).level = ⟨Function.update f.get? name (some v), f.bubbles⟩ := by
  have hget : (f.insert name v).get? = Function.update f.get? name (some v) := by
    funext x
    rw [Function.update_apply, Frame.get?, Frame.insert, Table.find?_insert]
    simp only [eq_comm (a := x)]
    rfl
  rw [Frame.level, hget]
  rfl

namespace Scopes

theorem search_eq_view (name : String) : ∀ frames : List Frame,
    search name frames = Level.view (frames.map Frame.level) name
  | [] => rfl
  | f :: below => by
    rw [search, search_eq_view name below]
    change _ = (f.get? name).or _
    cases f.get? name with
    | some v => rfl
    | none => rfl

theorem lookup?_eq_view (s : Scopes) (name : String) :
    s.lookup? name = Level.view s.levels name :=
  search_eq_view name s.frames

theorem insert?_isSome_iff (s : Scopes) (name : String) (v : Value) :
    (s.insert? name v).isSome ↔ 0 < s.depth := by
  obtain ⟨frames⟩ := s
  cases frames <;> simp [insert?, depth]

theorem view_insert {s t : Scopes} {name : String} {v : Value} (h : s.insert? name v = some t) :
    Level.view t.levels = Function.update (Level.view s.levels) name (some v) := by
  obtain ⟨frames⟩ := s
  cases frames with
  | nil => cases h
  | cons f below =>
    cases h
    funext x
    change Level.view ((f.insert name v).level :: below.map Frame.level) x = _
    rw [Frame.level_insert]
    by_cases hx : x = name
    · subst hx
      simp [Level.view]
    · simp [Level.view, levels, Frame.level, hx]

/-! ## Operations one after the other -/

theorem step_levels (s : Scopes) (op : ScopeOp) :
    Level.step s.levels op = ((s.step op).1, (s.step op).2.levels) := by
  cases op with
  | push names values bubbles =>
    rw [Level.step, ← Frame.get?_seed names values bubbles]
    rfl
  | pop =>
    rw [Level.step, levels, ← List.map_tail]
    rfl
  | insert name v =>
    obtain ⟨frames⟩ := s
    cases frames with
    | nil => rfl
    | cons f below =>
      change (ScopeAnswer.inserted true, _) = (_, (f.insert name v).level :: below.map Frame.level)
      rw [Frame.level_insert]
      rfl
  | lookup name =>
    rw [Level.step, ← lookup?_eq_view]
    rfl

theorem run_levels (ops : List ScopeOp) (s : Scopes) :
    runAll Level.step s.levels ops
      = ((runAll step s ops).1, (runAll step s ops).2.levels) := by
  induction ops generalizing s with
  | nil => rfl
  | cons op ops ih =>
    simp only [runAll, step_levels, ih]

/-! ## Below a frame -/

theorem step_above {below : List Frame} {s : Scopes} (hs : below <:+ s.frames)
    (hdepth : below.length < s.depth) (op : ScopeOp) : below <:+ (s.step op).2.frames := by
  obtain ⟨frames⟩ := s
  obtain ⟨above, rfl⟩ := hs
  cases above with
  | nil => simp [depth] at hdepth
  | cons f above =>
    cases op with
    | push names values bubbles => exact ⟨Frame.seed names values bubbles :: f :: above, rfl⟩
    | pop => exact ⟨above, rfl⟩
    | insert name v => exact ⟨f.insert name v :: above, rfl⟩
    | lookup name => exact ⟨f :: above, rfl⟩

/-- Operations that never go down as far as these frames leave them alone. -/
theorem run_above {below : List Frame} (ops : List ScopeOp) {s : Scopes} (hs : below <:+ s.frames)
    (h : ∀ before, before <+: ops → below.length < (runAll step s before).2.depth) :
    below <:+ (runAll step s ops).2.frames := by
  induction ops generalizing s with
  | nil => exact hs
  | cons op ops ih =>
    have hdepth : below.length < s.depth := h [] List.nil_prefix
    refine ih (step_above hs hdepth op) fun before hbefore => ?_
    exact h (op :: before) (List.cons_prefix_cons.2 ⟨rfl, hbefore⟩)

theorem pop_run_push (s : Scopes) (f : Frame) (ops : List ScopeOp)
    (h : ∀ before, before <+: ops → s.depth < (runAll step (s.push f) before).2.depth)
    (hend : (runAll step (s.push f) ops).2.depth = s.depth + 1) :
    (runAll step (s.push f) ops).2.pop = s := by
  have hbelow : s.frames <:+ (runAll step (s.push f) ops).2.frames :=
    run_above ops (List.suffix_cons f s.frames) h
  generalize (runAll step (s.push f) ops).2 = t at hbelow hend
  obtain ⟨frames⟩ := t
  obtain ⟨above, rfl⟩ := hbelow
  obtain ⟨g, rfl⟩ : ∃ g, above = [g] := by
    rw [← List.length_eq_one_iff]
    simp only [depth, List.length_append] at hend
    omega
  rfl

/-! ## Refinement -/

/-- Scopes are a list of environments: every sequence of operations has on frames the answers and
the effect that it has on environments. A look-up gives what the name stands for in the view; a name
can be bound exactly if there is a frame, and then the view is changed at that name; a frame that is
popped leaves what was there before it was pushed, whatever was done on top of it in between; it is
seeded with the last value of every name; and without frames popping changes nothing. -/
theorem stack_refines_environments :
    (∀ (s : Scopes) (ops : List ScopeOp),
      runAll Level.step s.levels ops = ((runAll step s ops).1, (runAll step s ops).2.levels)) ∧
    (∀ (s : Scopes) (name : String), s.lookup? name = Level.view s.levels name) ∧
    (∀ (s : Scopes) (name : String) (v : Value),
      ((s.insert? name v).isSome ↔ 0 < s.depth) ∧
      ∀ t, s.insert? name v = some t →
        Level.view t.levels = Function.update (Level.view s.levels) name (some v)) ∧
    (∀ (s : Scopes) (f : Frame) (ops : List ScopeOp),
      (∀ before, before <+: ops → s.depth < (runAll step (s.push f) before).2.depth) →
      (runAll step (s.push f) ops).2.depth = s.depth + 1 →
      (runAll step (s.push f) ops).2.pop = s) ∧
    (∀ (names : List String) (values : List Value) (bubbles : Bool) (name : String) (v : Value),
      (Frame.seed names values bubbles).get? name = some v ↔
        ∃ before after, names.zip values = before ++ (name, v) :: after ∧
          name ∉ after.map Prod.fst) ∧
    ∀ s : Scopes, s.depth = 0 → s.pop = s := by
  refine ⟨fun s ops => run_levels ops s, lookup?_eq_view, fun s name v => ?_, pop_run_push,
    fun names values bubbles name v => Frame.get?_seed_eq_some_iff, fun s h => ?_⟩
  · exact ⟨insert?_isSome_iff s name v, fun t => view_insert⟩
  · obtain ⟨frames⟩ := s
    obtain rfl := List.eq_nil_of_length_eq_zero h
    rfl

/-! An instance: on top of a frame that binds `x` another one binds it again, and so does a third,
which is pushed and popped in between. -/

def bindsX : Scopes := empty.push (Frame.seed ["x"] [.bool true] false)

def rebindsX : List ScopeOp :=
  [.insert "x" (.bool false), .push ["x", "x"] [.none, .string "a"] true, .lookup "x", .pop,
    .lookup "x"]

theorem stack_refines_environments_shadowed :
    (∀ before, before <+: rebindsX →
      bindsX.depth < (runAll step (bindsX.push ⟨[], true⟩) before).2.depth) ∧
    (runAll step (bindsX.push ⟨[], true⟩) rebindsX).2.depth = bindsX.depth + 1 ∧
    (runAll step (bindsX.push ⟨[], true⟩) rebindsX).2.pop = bindsX ∧
    (∃ t, bindsX.insert? "x" .none = some t ∧
      Level.view t.levels = Function.update (Level.view bindsX.levels) "x" (some .none)) ∧
    empty.depth = 0 ∧ empty.pop = empty := by
  have habove : ∀ before, before <+: rebindsX →
      bindsX.depth < (runAll step (bindsX.push ⟨[], true⟩) before).2.depth := by
    intro before hbefore
    have hall : ∀ before ∈ rebindsX.inits,
        bindsX.depth < (runAll step (bindsX.push ⟨[], true⟩) before).2.depth := by decide
    exact hall before ((List.mem_inits _ _).2 hbefore)
  have hend : (runAll step (bindsX.push ⟨[], true⟩) rebindsX).2.depth = bindsX.depth + 1 := rfl
  obtain ⟨-, -, hinsert, hpop, -, hempty⟩ := stack_refines_environments
  refine ⟨habove, hend, hpop bindsX ⟨[], true⟩ rebindsX habove hend, ?_, rfl, hempty empty rfl⟩
  exact ⟨_, rfl, (hinsert bindsX "x" .none).2 _ rfl⟩

end Scopes

end Arbor
