import Arbor.Failure

/-!
The category of a failure.

A chain is searched for one category after the other, but the order of the search does not matter:
at most one link, the cause, has a category other than that of a failed handler. So the cause decides
(`Failure.category_of_cause`), and where it has no category it matters only whether a handler was
passed (`Failure.category_of_none`). Wrapping can therefore give a category and never changes one.
-/

set_option autoImplicit false

namespace Arbor

theorem Cause.mem_categories {c : Cause} {k : String} (h : c.category? = some k) :
    k ∈ Cause.categories := by
  cases c <;> cases h <;> decide

namespace Failure

variable {f : Failure} {k : String}

/-- The failure of a handler is among the layers. -/
def PassedHandler (f : Failure) : Prop := ∃ name, .native name ∈ f.layers

theorem meets_iff : f.meets k = true ↔
    (k = "NativeError" ∧ f.PassedHandler) ∨ f.cause.bind Cause.category? = some k := by
  have hlayer : (∃ l ∈ f.layers, l.category? = some k) ↔ k = "NativeError" ∧ f.PassedHandler := by
    constructor
    · rintro ⟨l, hl, hk⟩
      cases l with
      | native name =>
        cases hk
        exact ⟨rfl, name, hl⟩
      | located stack => cases hk
      | noted before after => cases hk
    · rintro ⟨rfl, name, hname⟩
      exact ⟨_, hname, rfl⟩
  simp only [meets, Bool.or_eq_true, List.any_eq_true, beq_iff_eq, hlayer]

/-- Before the last one, a category is met only if it is that of the cause. -/
theorem meets_cause_iff (hk : k ∈ Cause.categories) :
    f.meets k = true ↔ f.cause.bind Cause.category? = some k := by
  rw [meets_iff]
  have hne : k ≠ "NativeError" := by
    rintro rfl
    revert hk
    decide
  simp [hne]

theorem category_of_cause (h : f.cause.bind Cause.category? = some k) : f.category = k := by
  obtain ⟨c, -, hc⟩ := Option.bind_eq_some_iff.1 h
  have hk := Cause.mem_categories hc
  have hmet : (Cause.categories.find? f.meets).isSome :=
    List.find?_isSome.2 ⟨k, hk, (meets_cause_iff hk).2 h⟩
  obtain ⟨k', hfound⟩ := Option.isSome_iff_exists.1 hmet
  have hk' := (meets_cause_iff (List.mem_of_find?_eq_some hfound)).1 (List.find?_some hfound)
  rw [category, categories, List.find?_append, hfound]
  exact Option.some.inj (hk'.symm.trans h)

theorem category_ne_of_cause (h : f.cause.bind Cause.category? = some k) : f.category ≠ "" := by
  rw [category_of_cause h]
  rintro rfl
  obtain ⟨c, -, hc⟩ := Option.bind_eq_some_iff.1 h
  exact absurd (Cause.mem_categories hc) (by decide)

theorem category_of_none (h : f.cause.bind Cause.category? = none) :
    f.category = if f.meets "NativeError" then "NativeError" else "" := by
  have hnone : Cause.categories.find? f.meets = none := by
    refine List.find?_eq_none.2 fun k hk hmeets => ?_
    rw [(meets_cause_iff hk).1 hmeets] at h
    cases h
  rw [category, categories, List.find?_append, hnone, Option.none_or, List.find?_singleton]
  split <;> rfl

theorem meets_native_iff (h : f.cause.bind Cause.category? = none) :
    f.meets "NativeError" = true ↔ f.PassedHandler := by
  rw [meets_iff, h]
  simp

theorem category_of_passed (h : f.cause.bind Cause.category? = none) (hp : f.PassedHandler) :
    f.category = "NativeError" := by
  rw [category_of_none h, if_pos ((meets_native_iff h).2 hp)]

theorem category_of_plain (h : f.cause.bind Cause.category? = none) (hp : ¬ f.PassedHandler) :
    f.category = "" := by
  rw [category_of_none h, if_neg fun hm => hp ((meets_native_iff h).1 hm)]

theorem category_eq_iff (hk : k ∈ Cause.categories) :
    f.category = k ↔ f.cause.bind Cause.category? = some k := by
  refine ⟨fun h => ?_, category_of_cause⟩
  cases hcause : f.cause.bind Cause.category? with
  | some k' => rw [← h, category_of_cause hcause]
  | none =>
    exfalso
    rw [category_of_none hcause] at h
    subst h
    split at hk <;> revert hk <;> decide

/-! ## Wrapping -/

theorem category_wrap {l : Layer} (hl : l.category? = none) : (f.wrap l).category = f.category := by
  have hmeets : (f.wrap l).meets = f.meets := by
    funext k
    simp [meets, wrap, hl]
  rw [category, category, hmeets]

theorem category_located (f : Failure) (stack : List Path) :
    (f.wrap (.located stack)).category = f.category := category_wrap rfl

theorem category_native (f : Failure) (name : String) : (f.wrap (.native name)).category =
    if f.category = "" then "NativeError" else f.category := by
  cases h : f.cause.bind Cause.category? with
  | some k =>
    rw [if_neg (category_ne_of_cause h), category_of_cause (f := f) h]
    exact category_of_cause h
  | none =>
    have hpassed : (f.wrap (.native name)).PassedHandler := ⟨name, List.mem_cons_self⟩
    rw [category_of_passed (f := f.wrap (.native name)) h hpassed, category_of_none h]
    split <;> rfl

end Failure

end Arbor
