import Arbor.Scope

/-!
Values bound in tables and frames.

`Table.All` and `Scopes.All` say that every bound value has a property. Frames come and go and names
are bound in them, and the property stays as long as new values have it, so that invariants on values
are stated once for all scopes. A name finds what was bound to it last.
-/

set_option autoImplicit false

namespace Arbor

/-- All values of the table are as `W` says. -/
def Table.All (W : Value → Prop) (t : Table Value) : Prop := ∀ p ∈ t, W p.2

/-- All values bound in any frame are as `W` says. -/
def Scopes.All (W : Value → Prop) (s : Scopes) : Prop := ∀ f ∈ s.frames, Table.All W f.bindings

section All
variable {W W' : Value → Prop}

theorem Table.All.insert {t : Table Value} (h : Table.All W t) (key : String) {v : Value}
    (hv : W v) : Table.All W (Table.insert t key v) := by
  intro p hp
  obtain rfl | hp := Table.mem_of_insert hp
  · exact hv
  · exact h p hp

theorem Table.all_ofPairs (names : List String) {vs : List Value} (h : ∀ v ∈ vs, W v) :
    Table.All W (Table.ofPairs (names.zip vs)) := by
  suffices ∀ (pairs : List (String × Value)) (t : Table Value), Table.All W t → Table.All W pairs →
      Table.All W (pairs.foldl (fun t p => Table.insert t p.1 p.2) t) from
    this _ [] nofun fun p hp => h p.2 (List.of_mem_zip hp).2
  intro pairs
  induction pairs with
  | nil => exact fun t ht _ => ht
  | cons p pairs ih =>
    intro t ht hp
    refine ih _ (ht.insert p.1 (hp p (List.mem_cons_self ..))) fun q hq => ?_
    exact hp q (List.mem_cons_of_mem _ hq)

theorem Value.all_getLastD {vs : List Value} (hnone : W .none) (h : ∀ v ∈ vs, W v) :
    W (vs.getLastD .none) := by
  rw [List.getLastD_eq_getLast?]
  cases hv : vs.getLast? with
  | none => exact hnone
  | some v => exact h v (List.mem_of_getLast? hv)

theorem Scopes.all_empty : Scopes.empty.All W := nofun

theorem Scopes.All.imp {s : Scopes} (h : s.All W) (hW : ∀ v, W v → W' v) : s.All W' :=
  fun f hf p hp => hW _ (h f hf p hp)

theorem Scopes.All.push {s : Scopes} (h : s.All W) {f : Frame} (hf : Table.All W f.bindings) :
    (s.push f).All W := by
  intro g hg
  obtain rfl | hg := List.mem_cons.1 hg
  · exact hf
  · exact h g hg

theorem Scopes.All.pop {s : Scopes} (h : s.All W) : s.pop.All W :=
  fun f hf => h f (List.mem_of_mem_tail hf)

theorem Scopes.All.insert {s t : Scopes} {name : String} {v : Value} (h : s.All W) (hv : W v)
    (ht : s.insert? name v = some t) : t.All W := by
  obtain ⟨frames⟩ := s
  cases frames with
  | nil => cases ht
  | cons f below =>
    cases ht
    intro g hg
    obtain rfl | hg := List.mem_cons.1 hg
    · exact (h f (List.mem_cons_self ..)).insert name hv
    · exact h g (List.mem_cons_of_mem _ hg)

theorem Scopes.all_search {name : String} {v : Value} : ∀ {frames : List Frame},
    (∀ f ∈ frames, Table.All W f.bindings) → Scopes.search name frames = some v → W v
  | [], _, hv => by cases hv
  | f :: below, h, hv => by
    unfold Scopes.search at hv
    split at hv
    · next hf =>
      cases hv
      exact h f (List.mem_cons_self ..) _ (Table.mem_of_find? hf)
    · split at hv
      · exact all_search (fun g hg => h g (List.mem_cons_of_mem _ hg)) hv
      · cases hv

end All

/-! ## Finding a value again -/

theorem Table.find?_ofPairs {α : Type} (before after : List (String × α)) {key : String} {x : α}
    (h : key ∉ after.map Prod.fst) :
    Table.find? (Table.ofPairs (before ++ (key, x) :: after)) key = some x := by
  unfold Table.ofPairs
  rw [List.foldl_append, List.foldl_cons, Table.find?_foldl_insert after _ h, Table.find?_insert,
    if_pos rfl]

theorem Scopes.lookup?_top {f : Frame} {below : List Frame} {name : String} {v : Value}
    (h : f.get? name = some v) : (Scopes.mk (f :: below)).lookup? name = some v := by
  simp [Scopes.lookup?, Scopes.search, h]

theorem Scopes.lookup?_insert {s t : Scopes} {name : String} {v : Value}
    (h : s.insert? name v = some t) : t.lookup? name = some v := by
  obtain ⟨frames⟩ := s
  cases frames with
  | nil => cases h
  | cons f below =>
    cases h
    refine lookup?_top ?_
    rw [Frame.insert, Frame.get?, Table.find?_insert, if_pos rfl]

end Arbor
