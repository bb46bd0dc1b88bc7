import Arbor.Format
import Arbor.Proofs.Tree.Schema

/-!
Where documents violate the grammar of trees.

A reader that fails blames a place (`Document.Blames`): one the document leads to, where a slot
rejects what is there. The readers of fields, lists and nodes blame places below their own, and blame
is passed up (`Document.Blames.within`, `Document.Blames.member`). As no slot rejects anything in a
document that is derived, the documents that are refused are exactly those with something to blame.
-/

set_option autoImplicit false

namespace Arbor

namespace Slot

variable {r : Role} {x : Option Document}

theorem rejects_of_absent (h : Absent x) : Rejects ⟨true, r⟩ x := .inl ⟨rfl, h⟩

theorem rejects_required (h : ∀ v, x = some v → ¬ r.Fits v) : Rejects ⟨true, r⟩ x := by
  cases x with
  | none => exact rejects_of_absent (.inl rfl)
  | some v =>
    by_cases hv : v = .null
    · exact rejects_of_absent (.inr (congrArg some hv))
    · exact .inr ⟨v, rfl, hv, h v rfl⟩

theorem rejects_value {required : Bool} {v : Document} (hv : v ≠ .null) (h : ¬ r.Fits v) :
    Rejects ⟨required, r⟩ (some v) := .inr ⟨v, rfl, hv, h⟩

end Slot

namespace Document

variable {d inner : Document} {fields : Table Document} {ds : List Document} {r part : Role}
  {slot slot' : Slot} {p q base place : Place} {key : String}

/-! ## Blame -/

-- Its own slot is required where it is looked at alone, and may be optional where it stands.
theorem Asks.trans (h : d.Asks r p slot) (hat : d.at? p = some inner)
    (h' : inner.Asks slot.role q slot') :
    d.Asks r (q ++ p) slot' ∨ (q = [] ∧ slot' = ⟨true, slot.role⟩) := by
  have hplace : ∀ q, d.at? (q ++ p) = inner.at? q := fun q => by
    rw [at?_append, hat, Option.bind_some]
  induction h' with
  | top => exact .inr ⟨rfl, rfl⟩
  | @field q slot' _ fields key _ hobject hkey ih =>
    left
    obtain ih | ⟨rfl, rfl⟩ := ih
    · exact .field ih ((hplace q).trans hobject) hkey
    · exact .field h ((hplace []).trans hobject) hkey
  | @index q required member ds i _ hlist hi ih =>
    left
    obtain ih | ⟨rfl, heq⟩ := ih
    · exact .index ih ((hplace q).trans hlist) hi
    · obtain ⟨req, role⟩ := slot
      cases heq
      exact .index h ((hplace []).trans hlist) hi

/-- In a value at `base` that has the role `r`, something at the place is rejected. -/
def Blames (r : Role) (d : Document) (base place : Place) : Prop :=
  ∃ p slot, place = p ++ base ∧ d.Asks r p slot ∧ slot.Rejects (d.at? p)

theorem Blames.self (h : Slot.Rejects ⟨true, r⟩ (some d)) : Blames r d base base :=
  ⟨[], _, rfl, .top, h⟩

theorem Blames.below (h : d.Asks r p slot) (hat : d.at? p = some inner)
    (hthere : slot.required = true ∨ inner ≠ .null)
    (hblame : Blames slot.role inner (p ++ base) place) : Blames r d base place := by
  obtain ⟨q, slot', rfl, hasks, hrejects⟩ := hblame
  have hplace : d.at? (q ++ p) = inner.at? q := by rw [at?_append, hat, Option.bind_some]
  refine ⟨q ++ p, ?_⟩
  -- Where the part itself is rejected, the slot that led to it may be optional, but not empty.
  obtain hasks' | ⟨rfl, rfl⟩ := h.trans hat hasks
  · exact ⟨slot', by rw [List.append_assoc], hasks', hplace ▸ hrejects⟩
  · refine ⟨slot, rfl, h, ?_⟩
    rw [List.nil_append, hat]
    obtain ⟨-, hnone | hnull⟩ | ⟨v, hv, hne, hfits⟩ := hrejects
    · cases hnone
    · have hinner : inner = .null := Option.some.inj hnull
      exact .inl ⟨hthere.resolve_right fun hne => hne hinner, .inr (congrArg some hinner)⟩
    · exact .inr ⟨v, hv, hne, hfits⟩

theorem asks_field (hkey : (key, slot) ∈ r.slots fields) :
    (Document.object fields).Asks r [.field key] slot := .field .top rfl hkey

theorem Blames.field (hkey : (key, slot) ∈ r.slots fields)
    (h : slot.Rejects (Table.find? fields key)) :
    Blames r (.object fields) base (.field key :: base) :=
  ⟨[.field key], slot, rfl, asks_field hkey, h⟩

theorem Blames.within (hkey : (key, slot) ∈ r.slots fields)
    (hfind : Table.find? fields key = some inner) (hthere : inner ≠ .null)
    (h : Blames slot.role inner (.field key :: base) place) :
    Blames r (.object fields) base place :=
  .below (asks_field hkey) hfind (.inr hthere) h

theorem Blames.member {i : Nat} (hi : ds[i]? = some inner)
    (h : Blames part inner (.index i :: base) place) :
    Blames (.list part) (.list ds) base place :=
  .below (.index .top rfl (List.getElem?_eq_some_iff.1 hi).1) hi (.inl rfl) h

end Document

/-! ## Readers of texts, numbers and paths -/

namespace Decode

open Document

variable {fields : Table Document} {key : String} {r : Role} {base : Place} {v : Violation}

theorem bind_eq_error {α β : Type} {x : Result α} {f : α → Result β} :
    (x >>= f) = .error v ↔ x = .error v ∨ ∃ a, x = .ok a ∧ f a = .error v := by
  cases x <;> simp [bind, Except.bind]

theorem stringField_blames (hkey : (key, ⟨true, .text⟩) ∈ r.slots fields)
    (h : stringField fields key base = .error v) : Blames r (.object fields) base v.place := by
  unfold stringField at h
  split at h
  next => cases h
  next hother =>
    cases h
    refine .field hkey (Slot.rejects_required fun d hd => ?_)
    rintro ⟨s, rfl⟩
    exact hother s hd

/-- Lists that are read one member after the other fail at a member. -/
theorem members_error {α : Type} {read : Nat → List Document → Result (List α)}
    {one : Nat → Document → Result α} (hnil : ∀ i, read i [] = .ok [])
    (hcons : ∀ i d ds, read i (d :: ds) = do
      let a ← one i d
      let rest ← read (i + 1) ds
      return a :: rest) {ds : List Document} {i : Nat} (h : read i ds = .error v) :
    ∃ j d, ds[j]? = some d ∧ one (i + j) d = .error v := by
  induction ds generalizing i with
  | nil =>
    rw [hnil] at h
    cases h
  | cons d ds ih =>
    rw [hcons] at h
    obtain h | ⟨a, -, h⟩ := bind_eq_error.1 h
    · exact ⟨0, d, rfl, h⟩
    obtain h | ⟨rest, -, h⟩ := bind_eq_error.1 h
    · obtain ⟨j, d', hd', h⟩ := ih h
      refine ⟨j + 1, d', hd', ?_⟩
      rwa [Nat.add_comm j, ← Nat.add_assoc]
    · cases h

theorem members_blame {α : Type} {read : Nat → List Document → Result (List α)}
    {one : Nat → Document → Result α} {part : Role} {ds : List Document}
    (hnil : ∀ i, read i [] = .ok [])
    (hcons : ∀ i d ds, read i (d :: ds) = do
      let a ← one i d
      let rest ← read (i + 1) ds
      return a :: rest)
    (hone : ∀ i d, ds[i]? = some d → one i d = .error v → Blames part d (.index i :: base) v.place)
    (h : read 0 ds = .error v) : Blames (.list part) (.list ds) base v.place := by
  obtain ⟨i, d, hd, h⟩ := members_error hnil hcons h
  rw [Nat.zero_add] at h
  exact .member hd (hone i d hd h)

def nameMember (place : Place) : Document → Result String
  | .string s => .ok s
  | _ => fault place .expectedString

theorem names_blames {ds : List Document} (h : names base 0 ds = .error v) :
    Blames (.list .text) (.list ds) base v.place := by
  have hnil : ∀ i, names base i [] = .ok [] := fun _ => rfl
  have hcons : ∀ i d ds, names base i (d :: ds) = do
      let s ← nameMember (.index i :: base) d
      let rest ← names base (i + 1) ds
      return s :: rest := by
    intro i d ds
    cases d <;> rfl
  refine members_blame hnil hcons (fun i d hd h => ?_) h
  unfold nameMember at h
  split at h
  next => cases h
  next hother =>
    cases h
    refine .self (Slot.rejects_required fun d' hd' => ?_)
    rintro ⟨s, rfl⟩
    exact hother s (Option.some.inj hd')

theorem nameList_blames (hkey : (key, ⟨false, .list .text⟩) ∈ r.slots fields)
    (h : nameList fields key base = .error v) : Blames r (.object fields) base v.place := by
  unfold nameList at h
  split at h
  next => cases h
  next => cases h
  next ds hds => exact .within hkey hds nofun (names_blames h)
  next d hnull hother hd =>
    cases h
    refine .field hkey ?_
    rw [hd]
    refine Slot.rejects_value hnull ?_
    rintro ⟨ds, rfl⟩
    exact hother ds rfl

theorem path_blames (hkey : ("path", ⟨true, .path⟩) ∈ r.slots fields)
    (h : path fields base = .error v) : Blames r (.object fields) base v.place := by
  unfold path at h
  split at h
  next inner hinner =>
    refine .within hkey hinner nofun ?_
    obtain h | ⟨module, -, h⟩ := bind_eq_error.1 h
    · exact stringField_blames List.mem_cons_self h
    · obtain h | ⟨item, -, h⟩ := bind_eq_error.1 h
      · exact stringField_blames (List.mem_cons_of_mem _ List.mem_cons_self) h
      · cases h
  next hother =>
    cases h
    refine .field hkey (Slot.rejects_required fun d hd => ?_)
    rintro ⟨inner, rfl⟩
    exact hother inner hd

theorem checkRange_place {n : Int} (h : checkRange base n = .error v) : v.place = base := by
  unfold checkRange at h
  split at h
  next => cases h
  next =>
    cases h
    rfl

theorem integer_place {x : Option Document} (h : integer base x = .error v) : v.place = base := by
  unfold integer at h
  split at h
  next s =>
    split at h
    next n hn =>
      split at h
      next => exact checkRange_place h
      next =>
        cases h
        rfl
    next =>
      cases h
      rfl
  next n => exact checkRange_place h
  next x =>
    split at h
    next n hn => exact checkRange_place h
    next =>
      cases h
      rfl
  next =>
    cases h
    rfl

theorem integer_blames (hkey : (key, ⟨true, .integer⟩) ∈ r.slots fields)
    (h : integer (.field key :: base) (Table.find? fields key) = .error v) :
    Blames r (.object fields) base v.place := by
  rw [integer_place h]
  refine .field hkey (Slot.rejects_required fun d hd => ?_)
  rintro ⟨number, n, rfl, hn⟩
  cases h.symm.trans (integer_eq_ok_iff.2 ⟨number, hd, hn⟩)

theorem float_place {x : Option Document} (h : float base x = .error v) : v.place = base := by
  unfold float at h
  split at h
  next s =>
    split at h
    next => cases h
    next =>
      cases h
      rfl
  next => cases h
  next => cases h
  next =>
    cases h
    rfl

theorem float_blames (hkey : (key, ⟨true, .number⟩) ∈ r.slots fields)
    (h : float (.field key :: base) (Table.find? fields key) = .error v) :
    Blames r (.object fields) base v.place := by
  rw [float_place h]
  refine .field hkey (Slot.rejects_required fun d hd => ?_)
  rintro ⟨number, x, rfl, hx⟩
  cases h.symm.trans (float_eq_ok_iff.2 ⟨number, hd, hx⟩)

/-! ## Readers of nodes -/

structure IsNode (r : Role) : Prop where
  slots : ∀ fields, r.slots fields = nodeSlots fields
  fits : ∀ d, r.Fits d → r.FitsNode d

theorem isNode_module : IsNode .module := ⟨fun _ => rfl, fun _ => id⟩

theorem isNode_item : IsNode .item := ⟨fun _ => rfl, fun _ => id⟩

theorem isNode_expr : IsNode .expr := ⟨fun _ => rfl, fun _ => id⟩

/-- The role of a node that was read. -/
def roleOf : Node → Role
  | .expr _ => .expr
  | .item _ => .item
  | .module _ => .module

theorem misplaced {d : Document} {n : Node} (hr : IsNode r) (h : node base d = .ok n)
    (hne : roleOf n ≠ r) : Blames r d base base := by
  have htyped : ∃ fields t, d = .object fields ∧ nodeTypeOf fields = some t ∧
      t.sort = roleOf n := by
    have hn := node_sound d h
    cases n with
    | expr e => exact Denotes.typed hn
    | item i => exact DenotesItem.typed hn
    | module m => exact DenotesModule.typed hn
  obtain ⟨fields, t, rfl, ht, hsort⟩ := htyped
  refine .self (Slot.rejects_required fun d hd hfits => hne ?_)
  cases hd
  obtain ⟨_, hobject, hall⟩ := hr.fits _ hfits
  cases hobject
  rw [← hsort, hall t ht]

/-- Whenever a node cannot be read from the document, something in it is to blame. -/
def NodeBlames (d : Document) : Prop :=
  ∀ ⦃base : Place⦄ ⦃r : Role⦄ ⦃v : Violation⦄, IsNode r → node base d = .error v →
    Blames r d base v.place

theorem asExpr_blames {d : Document} (hd : NodeBlames d)
    (h : asExpr base (node base d) = .error v) : Blames .expr d base v.place := by
  unfold asExpr at h
  split at h
  next => cases h
  next n hother hn =>
    cases h
    refine misplaced isNode_expr hn ?_
    cases n with
    | expr e => exact absurd rfl (hother e)
    | item | module => rintro ⟨⟩
  next v' hv =>
    cases h
    exact hd isNode_expr hv

theorem asItem_blames {d : Document} (hd : NodeBlames d)
    (h : asItem base (node base d) = .error v) : Blames .item d base v.place := by
  unfold asItem at h
  split at h
  next => cases h
  next n hother hn =>
    cases h
    refine misplaced isNode_item hn ?_
    cases n with
    | item i => exact absurd rfl (hother i)
    | expr | module => rintro ⟨⟩
  next v' hv =>
    cases h
    exact hd isNode_item hv

theorem exprField_blames {required : Bool} (hkey : (key, ⟨required, .expr⟩) ∈ r.slots fields)
    (ih : ∀ d, Table.find? fields key = some d → NodeBlames d)
    (h : exprField key base fields = .error v) : Blames r (.object fields) base v.place := by
  by_cases hl : Lacks fields key
  · rw [exprField_lacking hl] at h
    cases h
  · obtain ⟨d, hd⟩ : ∃ d, Table.find? fields key = some d :=
      Option.ne_none_iff_exists'.1 fun hnone => hl (.inl hnone)
    have hne : d ≠ .null := by
      rintro rfl
      exact hl (.inr hd)
    rw [exprField_found hd hne] at h
    obtain h | ⟨e, -, h⟩ := bind_eq_error.1 h
    · exact .within hkey hd hne (asExpr_blames (ih d hd) h)
    · cases h

theorem required_blames (hkey : (key, ⟨true, .expr⟩) ∈ r.slots fields)
    (ih : ∀ d, Table.find? fields key = some d → NodeBlames d)
    (h : required key base (exprField key base fields) = .error v) :
    Blames r (.object fields) base v.place := by
  unfold required at h
  split at h
  next => cases h
  next hnone =>
    cases h
    obtain ⟨hl, -⟩ | ⟨d, e, -, -, hsome⟩ := exprField_eq_ok_iff.1 hnone
    · exact .field hkey (Slot.rejects_of_absent hl)
    · cases hsome
  next v' hv =>
    cases h
    exact exprField_blames hkey ih hv

/-- How a list in a field is refused, whatever its members are. -/
theorem listField_blames {α : Type} {read : Table Document → Result (List α)}
    {inner : List Document → Result (List α)} {required : Bool} {part : Role}
    (hread : ∀ k d rest, read ((k, d) :: rest) = if k = key then read [(key, d)] else read rest)
    (hkey : (key, ⟨required, .list part⟩) ∈ r.slots fields)
    (hnone : read [] = .error v → required = true ∧ v.place = .field key :: base)
    (hnull : read [(key, .null)] = .error v → required = true ∧ v.place = .field key :: base)
    (hlist : ∀ ds, read [(key, .list ds)] = inner ds)
    (hother : ∀ d, (∀ ds, d ≠ .list ds) → d ≠ .null →
      read [(key, d)] = fault (.field key :: base) .expectedList)
    (hinner : ∀ ds, Table.find? fields key = some (.list ds) → inner ds = .error v →
      Blames (.list part) (.list ds) (.field key :: base) v.place)
    (h : read fields = .error v) : Blames r (.object fields) base v.place := by
  cases hd : Table.find? fields key with
  | none =>
    rw [eq_nil_of_find? hread hd] at h
    obtain ⟨rfl, hplace⟩ := hnone h
    exact hplace ▸ .field hkey (Slot.rejects_of_absent (.inl hd))
  | some d =>
    rw [eq_of_find? hread hd] at h
    by_cases hdnull : d = .null
    · subst hdnull
      obtain ⟨rfl, hplace⟩ := hnull h
      exact hplace ▸ .field hkey (Slot.rejects_of_absent (.inr hd))
    by_cases hlists : ∃ ds, d = .list ds
    · obtain ⟨ds, rfl⟩ := hlists
      exact .within hkey hd hdnull (hinner ds hd (hlist ds ▸ h))
    · rw [hother d (fun ds hds => hlists ⟨ds, hds⟩) hdnull] at h
      cases h
      exact .field hkey (hd ▸ Slot.rejects_value hdnull hlists)

theorem sizeOf_member {ds : List Document} {d : Document} {i : Nat}
    (hds : Table.find? fields key = some (.list ds)) (hd : ds[i]? = some d) :
    sizeOf d < sizeOf (Document.object fields) := by
  have hmember := List.sizeOf_lt_of_mem (List.mem_of_getElem? hd)
  have hlist := Table.sizeOf_lt_of_find? hds
  rw [Document.list.sizeOf_spec] at hlist
  omega

theorem exprs_blames {ds : List Document} (ih : ∀ (i : Nat) d, ds[i]? = some d → NodeBlames d)
    (h : exprs base 0 ds = .error v) : Blames (.list .expr) (.list ds) base v.place := by
  have hnil : ∀ i, exprs base i [] = .ok [] := fun i => by simp only [exprs]
  have hcons : ∀ i d ds, exprs base i (d :: ds) = do
      let e ← asExpr (.index i :: base) (node (.index i :: base) d)
      let rest ← exprs base (i + 1) ds
      return e :: rest := fun i d ds => by simp only [exprs]
  exact members_blame hnil hcons (fun i d hd h => asExpr_blames (ih i d hd) h) h

theorem itemList_blames {ds : List Document} (ih : ∀ (i : Nat) d, ds[i]? = some d → NodeBlames d)
    (h : itemList base 0 ds = .error v) : Blames (.list .item) (.list ds) base v.place := by
  have hnil : ∀ i, itemList base i [] = .ok [] := fun i => by simp only [itemList]
  have hcons : ∀ i d ds, itemList base i (d :: ds) = do
      let item ← asItem (.index i :: base) (node (.index i :: base) d)
      let rest ← itemList base (i + 1) ds
      return item :: rest := fun i d ds => by simp only [itemList]
  exact members_blame hnil hcons (fun i d hd h => asItem_blames (ih i d hd) h) h

def entryMember (place : Place) : Document → Result Entry
  | .object fields => do
    let key ← stringField fields "key" place
    let value ← required "value" place (exprField "value" place fields)
    return .field key value
  | _ => fault place .expectedObject

theorem entry_blames {d : Document} (ih : ∀ d', sizeOf d' < sizeOf d → NodeBlames d')
    (h : entryMember base d = .error v) : Blames .entry d base v.place := by
  unfold entryMember at h
  split at h
  next fields =>
    obtain h | ⟨key, -, h⟩ := bind_eq_error.1 h
    · exact stringField_blames List.mem_cons_self h
    · obtain h | ⟨value, -, h⟩ := bind_eq_error.1 h
      · refine required_blames (List.mem_cons_of_mem _ List.mem_cons_self) (fun d' hd' => ?_) h
        exact ih d' (Table.sizeOf_lt_of_find? hd')
      · cases h
  next hother =>
    cases h
    refine .self (Slot.rejects_required fun d' hd' => ?_)
    rintro ⟨fields, rfl⟩
    exact hother fields (Option.some.inj hd')

theorem entries_blames {ds : List Document}
    (ih : ∀ (i : Nat) d, ds[i]? = some d → ∀ d', sizeOf d' < sizeOf d → NodeBlames d')
    (h : entries base 0 ds = .error v) : Blames (.list .entry) (.list ds) base v.place := by
  have hnil : ∀ i, entries base i [] = .ok [] := fun i => by simp only [entries]
  have hcons : ∀ i d ds, entries base i (d :: ds) = do
      let e ← entryMember (.index i :: base) d
      let rest ← entries base (i + 1) ds
      return e :: rest := by
    intro i d ds
    cases d with
    | object fields => simp only [entries, entryMember, bind_assoc, pure_bind]
    | _ => rfl
  exact members_blame hnil hcons (fun i d hd h => entry_blames (ih i d hd) h) h

section Fields

variable (ih : ∀ d, sizeOf d < sizeOf (Document.object fields) → NodeBlames d)
include ih

theorem exprsField_blames (hkey : (key, ⟨false, .list .expr⟩) ∈ r.slots fields)
    (h : exprsField key base fields = .error v) : Blames r (.object fields) base v.place := by
  have hlist : ∀ ds, exprsField key base [(key, .list ds)] = exprs (.field key :: base) 0 ds :=
    fun ds => by simp only [exprsField, if_true]
  refine listField_blames (exprsField_cons key base) hkey ?_ ?_ hlist
    (fun d hlists hnull => ?_) ?_ h
  · simp [exprsField]
  · simp [exprsField]
  · cases d with
    | null => exact absurd rfl hnull
    | list ds => exact absurd rfl (hlists ds)
    | _ => simp only [exprsField, if_true]
  · exact fun ds hds h => exprs_blames (fun i d hd => ih d (sizeOf_member hds hd)) h

theorem entriesField_blames (hkey : ("entries", ⟨false, .list .entry⟩) ∈ r.slots fields)
    (h : entriesField base fields = .error v) : Blames r (.object fields) base v.place := by
  have hlist : ∀ ds, entriesField base [("entries", .list ds)] =
      entries (.field "entries" :: base) 0 ds := fun ds => by simp only [entriesField, if_true]
  refine listField_blames (entriesField_cons base) hkey ?_ ?_ hlist (fun d hlists hnull => ?_) ?_ h
  · simp [entriesField]
  · simp [entriesField]
  · cases d with
    | null => exact absurd rfl hnull
    | list ds => exact absurd rfl (hlists ds)
    | _ => simp only [entriesField, if_true]
  · exact fun ds hds h => entries_blames
      (fun i d hd d' hd' => ih d' (hd'.trans (sizeOf_member hds hd))) h

theorem itemsField_blames (hkey : ("items", ⟨true, .list .item⟩) ∈ r.slots fields)
    (h : itemsField base fields = .error v) : Blames r (.object fields) base v.place := by
  have hlist : ∀ ds, itemsField base [("items", .list ds)] =
      itemList (.field "items" :: base) 0 ds := fun ds => by simp only [itemsField, if_true]
  refine listField_blames (itemsField_cons base) hkey ?_ ?_ hlist (fun d hlists hnull => ?_) ?_ h
  · intro h
    simp only [itemsField] at h
    cases h
    exact ⟨rfl, rfl⟩
  · intro h
    simp only [itemsField, if_true] at h
    cases h
    exact ⟨rfl, rfl⟩
  · cases d with
    | null => exact absurd rfl hnull
    | list ds => exact absurd rfl (hlists ds)
    | _ => simp only [itemsField, if_true]
  · exact fun ds hds h => itemList_blames (fun i d hd => ih d (sizeOf_member hds hd)) h

theorem typed_blames {name : String} {type : NodeType}
    (hname : Table.find? fields "type" = some (.string name))
    (ht : NodeType.ofText? name = some type) (hkeys : ∀ p ∈ type.slots, p ∈ r.slots fields)
    (h : node base (.object fields) = .error v) :
    Blames r (.object fields) base v.place := by
  have hchild : ∀ key d, Table.find? fields key = some d → NodeBlames d := fun key d hd =>
    ih d (Table.sizeOf_lt_of_find? hd)
  cases type with
  | module =>
    simp only [node, hname, ht] at h
    obtain h | ⟨items, -, h⟩ := bind_eq_error.1 h
    · exact itemsField_blames ih (hkeys _ List.mem_cons_self) h
    · cases h
  | exportItem =>
    simp only [node, hname, ht] at h
    obtain h | ⟨names, -, h⟩ := bind_eq_error.1 h
    · exact nameList_blames (hkeys _ List.mem_cons_self) h
    · cases h
  | importItem =>
    simp only [node, hname, ht] at h
    obtain h | ⟨module, -, h⟩ := bind_eq_error.1 h
    · exact stringField_blames (hkeys _ List.mem_cons_self) h
    obtain h | ⟨names, -, h⟩ := bind_eq_error.1 h
    · exact nameList_blames (hkeys _ (.tail _ List.mem_cons_self)) h
    · cases h
  | functionDefinition =>
    simp only [node, hname, ht] at h
    obtain h | ⟨f, -, h⟩ := bind_eq_error.1 h
    · exact stringField_blames (hkeys _ List.mem_cons_self) h
    obtain h | ⟨parameters, -, h⟩ := bind_eq_error.1 h
    · exact nameList_blames (hkeys _ (.tail _ List.mem_cons_self)) h
    obtain h | ⟨body, -, h⟩ := bind_eq_error.1 h
    · exact exprField_blames (hkeys _ (.tail _ (.tail _ List.mem_cons_self))) (hchild _) h
    · cases h
  | block | listLiteral =>
    simp only [node, hname, ht] at h
    obtain h | ⟨es, -, h⟩ := bind_eq_error.1 h
    · exact exprsField_blames ih (hkeys _ List.mem_cons_self) h
    · cases h
  | assignment =>
    simp only [node, hname, ht] at h
    obtain h | ⟨x, -, h⟩ := bind_eq_error.1 h
    · exact stringField_blames (hkeys _ List.mem_cons_self) h
    obtain h | ⟨e, -, h⟩ := bind_eq_error.1 h
    · exact required_blames (hkeys _ (.tail _ List.mem_cons_self)) (hchild _) h
    · cases h
  | invoke | stringLiteral =>
    simp only [node, hname, ht] at h
    obtain h | ⟨s, -, h⟩ := bind_eq_error.1 h
    · exact stringField_blames (hkeys _ List.mem_cons_self) h
    · cases h
  | integerLiteral =>
    simp only [node, hname, ht] at h
    obtain h | ⟨n, -, h⟩ := bind_eq_error.1 h
    · exact integer_blames (hkeys _ List.mem_cons_self) h
    · cases h
  | floatLiteral =>
    simp only [node, hname, ht] at h
    obtain h | ⟨x, -, h⟩ := bind_eq_error.1 h
    · exact float_blames (hkeys _ List.mem_cons_self) h
    · cases h
  | booleanLiteral =>
    simp only [node, hname, ht] at h
    split at h
    next => cases h
    next hother =>
      cases h
      refine .field (hkeys _ List.mem_cons_self) (Slot.rejects_required fun d hd => ?_)
      rintro ⟨b, rfl⟩
      exact hother b hd
  | mapLiteral =>
    simp only [node, hname, ht] at h
    obtain h | ⟨es, -, h⟩ := bind_eq_error.1 h
    · exact entriesField_blames ih (hkeys _ List.mem_cons_self) h
    · cases h
  | functionCall =>
    simp only [node, hname, ht] at h
    obtain h | ⟨p, -, h⟩ := bind_eq_error.1 h
    · exact path_blames (hkeys _ List.mem_cons_self) h
    obtain h | ⟨es, -, h⟩ := bind_eq_error.1 h
    · exact exprsField_blames ih (hkeys _ (.tail _ List.mem_cons_self)) h
    · cases h
  | condition =>
    simp only [node, hname, ht] at h
    obtain h | ⟨test, -, h⟩ := bind_eq_error.1 h
    · exact required_blames (hkeys _ List.mem_cons_self) (hchild _) h
    obtain h | ⟨a, -, h⟩ := bind_eq_error.1 h
    · exact required_blames (hkeys _ (.tail _ List.mem_cons_self)) (hchild _) h
    obtain h | ⟨b, -, h⟩ := bind_eq_error.1 h
    · exact required_blames (hkeys _ (.tail _ (.tail _ List.mem_cons_self))) (hchild _) h
    · cases h
  | loop =>
    simp only [node, hname, ht] at h
    obtain h | ⟨e, -, h⟩ := bind_eq_error.1 h
    · exact required_blames (hkeys _ List.mem_cons_self) (hchild _) h
    · cases h
  | ret | brk =>
    simp only [node, hname, ht] at h
    obtain h | ⟨e, -, h⟩ := bind_eq_error.1 h
    · exact exprField_blames (hkeys _ List.mem_cons_self) (hchild _) h
    · cases h

theorem object_blames : NodeBlames (.object fields) := by
  intro base r v hr h
  have htype : ("type", ⟨true, .nodeType⟩) ∈ r.slots fields := by
    rw [hr.slots]
    exact List.mem_cons_self
  by_cases hname : ∃ name, Table.find? fields "type" = some (.string name)
  · obtain ⟨name, hname⟩ := hname
    cases ht : NodeType.ofText? name with
    | none =>
      simp only [node, hname, ht] at h
      cases h
      refine .field htype (Slot.rejects_required fun d hd => ?_)
      rintro ⟨t, rfl⟩
      cases hname.symm.trans hd
      rw [NodeType.ofText?_text] at ht
      cases ht
    | some type =>
      refine typed_blames ih hname ht (fun p hp => ?_) h
      have hnode : nodeTypeOf fields = some type := by simp only [nodeTypeOf, hname, ht]
      rw [hr.slots, nodeSlots, hnode]
      exact List.mem_cons_of_mem _ hp
  · have hmissing : v.place = .field "type" :: base := by
      simp only [node] at h
      split at h
      next name hfound => exact absurd ⟨name, hfound⟩ hname
      next =>
        cases h
        rfl
    rw [hmissing]
    refine .field htype (Slot.rejects_required fun d hd => ?_)
    rintro ⟨t, rfl⟩
    exact hname ⟨t.text, hd⟩

end Fields

theorem node_blames (d : Document) : NodeBlames d := by
  by_cases hobject : ∃ fields, d = .object fields
  · obtain ⟨fields, rfl⟩ := hobject
    exact object_blames fun d' _ => node_blames d'
  · intro base r v hr h
    have hplace : v.place = base := by
      unfold node at h
      split at h
      next fields => exact absurd ⟨fields, rfl⟩ hobject
      next =>
        cases h
        rfl
    rw [hplace]
    refine .self (Slot.rejects_required fun d' hd' hfits => hobject ?_)
    cases hd'
    obtain ⟨fields, h, -⟩ := hr.fits d hfits
    exact ⟨fields, h⟩
termination_by sizeOf d

end Decode

/-! ## Whole documents -/

theorem Place.text_root (p : Place) : ∃ rest, p.text = "$" ++ rest := by
  induction p with
  | nil => exact ⟨"", rfl⟩
  | cons step p ih =>
    obtain ⟨rest, hrest⟩ := ih
    cases step with
    | field name => exact ⟨rest ++ "." ++ name, by simp only [text, hrest, String.append_assoc]⟩
    | index i =>
      exact ⟨rest ++ "[" ++ toString i ++ "]", by simp only [text, hrest, String.append_assoc]⟩

namespace Document

variable {d : Document} {v : Violation}

/-- The place of a violation starts at the top and stays within the document, and a slot that is
asked for there rejects what is there. -/
structure Located (top : Role) (d : Document) (v : Violation) : Prop where
  rooted : ∃ rest, v.place.text = "$" ++ rest
  within : v.place = [] ∨
    ∃ step up parent, v.place = step :: up ∧ d.at? up = some parent ∧ step.InRange parent
  rejected : ∃ slot, d.Asks top v.place slot ∧ slot.Rejects (d.at? v.place)

theorem Blames.located {top : Role} (h : Blames top d [] v.place) : d.Located top v := by
  obtain ⟨p, slot, hplace, hasks, hrejects⟩ := h
  rw [List.append_nil] at hplace
  rw [← hplace] at hasks hrejects
  exact ⟨v.place.text_root, hasks.in_range, slot, hasks, hrejects⟩

theorem notObject_located {top : Role} (htop : Decode.IsNode top)
    (h : ∀ fields, d ≠ .object fields) (hv : v.place = []) : d.Located top v := by
  refine Blames.located ?_
  rw [hv]
  refine .self (Slot.rejects_required fun d' hd' hfits => ?_)
  cases hd'
  obtain ⟨fields, hobject, -⟩ := htop.fits d hfits
  exact h fields hobject

theorem toExpr_located (h : d.toExpr = .error v) : d.Located .expr v := by
  unfold toExpr at h
  split at h
  next fields => exact (Decode.asExpr_blames (Decode.node_blames _) h).located
  next hother =>
    cases h
    exact notObject_located Decode.isNode_expr hother rfl

theorem toModule_located (h : d.toModule = .error v) : d.Located .module v := by
  unfold toModule at h
  split at h
  next fields =>
    obtain h | ⟨n, hn, h⟩ := Decode.bind_eq_error.1 h
    · exact (Decode.node_blames _ Decode.isNode_module h).located
    · cases n with
      | module m => cases h
      | expr | item =>
        cases h
        refine (Decode.misplaced Decode.isNode_module hn ?_).located
        rintro ⟨⟩
  next hother =>
    cases h
    exact notObject_located Decode.isNode_module hother rfl

/-- An expression is derived exactly if no slot rejects anything. -/
theorem denotes_iff_none_rejected :
    (∃ e, d.Denotes e) ↔ ∀ p slot, d.Asks .expr p slot → ¬ slot.Rejects (d.at? p) := by
  have hholds : Role.expr.Holds d ↔ ∃ e, d.Denotes e := Iff.rfl
  refine ⟨fun h p slot hasks => hasks.not_rejects (hholds.2 h), fun h => ?_⟩
  cases hd : d.toExpr with
  | ok e => exact ⟨e, toExpr_eq_ok_iff.1 hd⟩
  | error v =>
    obtain ⟨slot, hasks, hrejects⟩ := (toExpr_located hd).rejected
    exact absurd hrejects (h _ slot hasks)

theorem denotesModule_iff_none_rejected :
    (∃ m, d.DenotesModule m) ↔ ∀ p slot, d.Asks .module p slot → ¬ slot.Rejects (d.at? p) := by
  have hholds : Role.module.Holds d ↔ ∃ m, d.DenotesModule m := Iff.rfl
  refine ⟨fun h p slot hasks => hasks.not_rejects (hholds.2 h), fun h => ?_⟩
  cases hd : d.toModule with
  | ok m => exact ⟨m, toModule_eq_ok_iff.1 hd⟩
  | error v =>
    obtain ⟨slot, hasks, hrejects⟩ := (toModule_located hd).rejected
    exact absurd hrejects (h _ slot hasks)

end Document

/-- The error for a document that is refused names a place in the document where a slot rejects what
is there, and documents are refused for nothing else. -/
theorem refused_where_rejected :
    (∀ (f : Format) (bytes : List UInt8) (d : Document) (e : DecodeError),
      f.document bytes = .ok d → f.readExpr bytes = .error e →
      ∃ v, e = .violation v ∧ e.text = "decode: " ++ v.place.text ++ ": " ++ v.flaw.text ∧
        d.Located .expr v) ∧
    (∀ (f : Format) (bytes : List UInt8) (d : Document) (e : DecodeError),
      f.document bytes = .ok d → f.readModule bytes = .error e →
      ∃ v, e = .violation v ∧ e.text = "decode: " ++ v.place.text ++ ": " ++ v.flaw.text ∧
        d.Located .module v) ∧
    (∀ d : Document,
      (∃ e, d.Denotes e) ↔ ∀ p slot, d.Asks .expr p slot → ¬ slot.Rejects (d.at? p)) ∧
    ∀ d : Document,
      (∃ m, d.DenotesModule m) ↔ ∀ p slot, d.Asks .module p slot → ¬ slot.Rejects (d.at? p) := by
  refine ⟨fun f bytes d e hd h => ?_, fun f bytes d e hd h => ?_,
    fun d => Document.denotes_iff_none_rejected, fun d => Document.denotesModule_iff_none_rejected⟩
  · unfold Format.readExpr at h
    rw [hd] at h
    change d.toExpr.mapError _ = _ at h
    cases hread : d.toExpr with
    | ok e =>
      rw [hread] at h
      cases h
    | error v =>
      rw [hread] at h
      cases h
      exact ⟨v, rfl, rfl, Document.toExpr_located hread⟩
  · unfold Format.readModule at h
    rw [hd] at h
    change d.toModule.mapError _ = _ at h
    cases hread : d.toModule with
    | ok m =>
      rw [hread] at h
      cases h
    | error v =>
      rw [hread] at h
      cases h
      exact ⟨v, rfl, rfl, Document.toModule_located hread⟩

/-- A call whose path has no item is refused there. -/
theorem refused_where_rejected_call :
    let bytes := Text.bytes "\x7b\"type\": \"FunctionCall\", \"path\": \x7b\"module\": \"m\"\x7d\x7d"
    let d : Document :=
      .object [("path", .object [("module", .string "m")]), ("type", .string "FunctionCall")]
    Format.json.document bytes = .ok d ∧
      ∃ e v, Format.json.readExpr bytes = .error e ∧ e = .violation v ∧
        v.place = [.field "item", .field "path"] ∧ e.text = "decode: $.path.item: expected string" ∧
        d.Located .expr v := by
  intro bytes d
  have hdocument : Format.json.document bytes = .ok d := Format.document_of_parse rfl
  have hread : Format.json.readExpr bytes =
      .error (.violation ⟨[.field "item", .field "path"], .expectedString⟩) := by
    unfold Format.readExpr
    rw [hdocument]
    rfl
  obtain ⟨v, hv, -, hlocated⟩ := refused_where_rejected.1 _ bytes d _ hdocument hread
  cases hv
  exact ⟨hdocument, _, _, hread, rfl, rfl, rfl, hlocated⟩

end Arbor
