/-!
Finite tables keyed by text.

A table is a list of pairs in ascending order of their keys. It carries object fields, the bindings
of a frame, the functions of a module and the modules of a registry, so that every listing of keys
comes out sorted. `find?_insert` and `Ordered.insert` are the laws its users need.
-/

set_option autoImplicit false

namespace Arbor

universe u

/-- Pairs of a key and a value, in ascending order of the keys. -/
abbrev Table (α : Type u) := List (String × α)

namespace Table

variable {α : Type u}

def find? : Table α → String → Option α
  | [], _ => none
  | (k, v) :: t, key => if k = key then some v else find? t key

/-- Binds `key` to `x`, in place of what it was bound to before. -/
def insert : Table α → String → α → Table α
  | [], key, x => [(key, x)]
  | (k, v) :: t, key, x =>
    if k = key then (key, x) :: t
    else if key < k then (key, x) :: (k, v) :: t
    else (k, v) :: insert t key x

def keys (t : Table α) : List String := t.map Prod.fst

def contains (t : Table α) (key : String) : Bool := (find? t key).isSome

/-- The table of the given pairs; of two pairs with one key the later one counts. -/
def ofPairs (pairs : List (String × α)) : Table α :=
  pairs.foldl (fun t p => insert t p.1 p.2) []

/-- Keys strictly ascend; every table built by `insert` has this property. -/
def Ordered (t : Table α) : Prop := (keys t).Pairwise (· < ·)

@[simp] theorem find?_nil (key : String) : find? ([] : Table α) key = none := rfl

theorem find?_cons (p : String × α) (t : Table α) (key : String) :
    find? (p :: t) key = if p.1 = key then some p.2 else find? t key := rfl

@[simp] theorem insert_nil (key : String) (x : α) : insert [] key x = [(key, x)] := rfl

theorem insert_cons (p : String × α) (t : Table α) (key : String) (x : α) :
    insert (p :: t) key x =
      if p.1 = key then (key, x) :: t
      else if key < p.1 then (key, x) :: p :: t
      else p :: insert t key x := rfl

theorem find?_insert (t : Table α) (key other : String) (x : α) :
    find? (insert t key x) other = if key = other then some x else find? t other := by
  induction t with
  | nil => simp [find?_cons]
  | cons p t ih =>
    obtain ⟨k, v⟩ := p
    by_cases hk : k = key
    · subst hk
      by_cases ho : k = other <;> simp [insert_cons, find?_cons, ho]
    · by_cases hlt : key < k
      · simp [insert_cons, find?_cons, hk, hlt]
      · by_cases ho : k = other
        · subst ho
          have : ¬ key = k := fun h => hk h.symm
          simp [insert_cons, find?_cons, hk, hlt, this]
        · simp [insert_cons, find?_cons, hk, hlt, ho, ih]

theorem mem_of_insert {t : Table α} {key : String} {x : α} {p : String × α} :
    p ∈ insert t key x → p = (key, x) ∨ p ∈ t := by
  induction t with
  | nil => exact fun hp => .inl (List.mem_singleton.1 hp)
  | cons q t ih =>
    intro hp
    rw [insert_cons] at hp
    split at hp
    · exact (List.mem_cons.1 hp).imp id (List.mem_cons_of_mem _)
    · split at hp
      · exact List.mem_cons.1 hp
      · obtain rfl | hp := List.mem_cons.1 hp
        · exact .inr (List.mem_cons_self ..)
        · exact (ih hp).imp id (List.mem_cons_of_mem _)

theorem mem_of_find? {t : Table α} {key : String} {x : α} (h : find? t key = some x) :
    (key, x) ∈ t := by
  induction t with
  | nil => cases h
  | cons q t ih =>
    rw [find?_cons] at h
    split at h
    · next hk =>
      cases hk
      cases h
      exact List.mem_cons_self ..
    · exact List.mem_cons_of_mem _ (ih h)

theorem find?_isSome_iff {t : Table α} {key : String} : (find? t key).isSome ↔ key ∈ keys t := by
  induction t with
  | nil => simp [keys]
  | cons p t ih =>
    obtain ⟨k, v⟩ := p
    by_cases hk : k = key
    · simp [find?_cons, keys, hk]
    · simpa [find?_cons, keys, hk, Ne.symm hk] using ih

theorem Ordered.find?_of_mem {t : Table α} (h : Ordered t) {key : String} {x : α}
    (hp : (key, x) ∈ t) : find? t key = some x := by
  induction t with
  | nil => cases hp
  | cons q t ih =>
    obtain ⟨k, v⟩ := q
    obtain ⟨hk, ht⟩ := List.pairwise_cons.1 h
    obtain heq | hp := List.mem_cons.1 hp
    · cases heq
      simp [find?_cons]
    · have hlt : k < key := hk key (List.mem_map_of_mem hp)
      have hne : k ≠ key := fun heq => String.lt_irrefl key (heq ▸ hlt)
      rw [find?_cons, if_neg hne]
      exact ih ht hp

theorem find?_foldl_insert {key : String} : ∀ (pairs : List (String × α)) (t : Table α),
    key ∉ pairs.map Prod.fst → find? (pairs.foldl (fun t p => insert t p.1 p.2) t) key = find? t key
  | [], _, _ => rfl
  | p :: pairs, t, h => by
    have hne : p.1 ≠ key := fun hp => h (hp ▸ List.mem_cons_self)
    have hrest : key ∉ pairs.map Prod.fst := fun hp => h (List.mem_cons_of_mem _ hp)
    rw [List.foldl_cons, find?_foldl_insert pairs _ hrest, find?_insert, if_neg hne]

theorem find?_foldl_insert_eq (pairs : List (String × α)) (t : Table α)
    (key : String) : find? (pairs.foldl (fun t p => insert t p.1 p.2) t) key =
      (pairs.reverse.lookup key).or (find? t key) := by
  induction pairs generalizing t with
  | nil => simp
  | cons p pairs ih =>
    obtain ⟨k, x⟩ := p
    rw [List.foldl_cons, ih, find?_insert, List.reverse_cons, List.lookup_append]
    by_cases hk : k = key
    · cases List.lookup key pairs.reverse <;> simp [hk]
    · have hne : (key == k) = false := by simpa using Ne.symm hk
      simp [hk, List.lookup_cons, hne]

theorem Ordered.insert {t : Table α} (h : Ordered t) (key : String) (x : α) :
    Ordered (insert t key x) := by
  induction t with
  | nil => simp [Ordered, keys]
  | cons p t ih =>
    obtain ⟨k, v⟩ := p
    obtain ⟨hk, ht⟩ := List.pairwise_cons.1 h
    rw [insert_cons]
    split
    next heq =>
      subst heq
      exact List.pairwise_cons.2 ⟨hk, ht⟩
    next hne =>
      split
      next hlt =>
        refine List.pairwise_cons.2 ⟨?_, h⟩
        intro other ho
        obtain rfl | ho := List.mem_cons.1 ho
        · exact hlt
        · exact String.lt_trans hlt (hk other ho)
      next hge =>
        refine List.pairwise_cons.2 ⟨?_, ih ht⟩
        intro other ho
        obtain ⟨q, hq, rfl⟩ := List.mem_map.1 ho
        obtain rfl | hq := mem_of_insert hq
        · exact Decidable.byContradiction fun hlt =>
            hne (String.le_antisymm (String.not_lt.1 hge) (String.not_lt.1 hlt))
        · exact hk _ (List.mem_map_of_mem hq)

end Table

end Arbor
