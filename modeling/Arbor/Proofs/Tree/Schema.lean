import Arbor.Proofs.Tree.Grammar

/-!
What the grammar of trees asks for, place by place.

* A `Slot` says what may stand at a place: whether something has to be there, and its `Role`.
* From the top of a document, slots follow from the values that are there (`Document.Asks`): a node
  asks for its type and for the fields of its type, whatever its own role, and a list for its
  members.
* `Slot.Rejects` looks at one value only: its kind, the sort of its node type and its range.

In a document the grammar derives a tree from, no slot rejects what is there
(`Document.Asks.not_rejects`).
-/

set_option autoImplicit false

namespace Arbor

/-! ## Slots -/

/-- What a part of a document is read as. -/
inductive Role where
  | module | item | expr | entry | path | nodeType | text | integer | number | bool
  | list (member : Role)

/-- What may stand at a place. -/
structure Slot where
  required : Bool
  role : Role

namespace NodeType

def sort : NodeType → Role
  | .module => .module
  | .exportItem | .importItem | .functionDefinition => .item
  | _ => .expr

/-- The fields of nodes of that type. -/
def slots : NodeType → List (String × Slot)
  | .module => [("items", ⟨true, .list .item⟩)]
  | .exportItem => [("names", ⟨false, .list .text⟩)]
  | .importItem => [("module", ⟨true, .text⟩), ("items", ⟨false, .list .text⟩)]
  | .functionDefinition =>
    [("name", ⟨true, .text⟩), ("parameters", ⟨false, .list .text⟩), ("body", ⟨false, .expr⟩)]
  | .block => [("expressions", ⟨false, .list .expr⟩)]
  | .assignment => [("name", ⟨true, .text⟩), ("value", ⟨true, .expr⟩)]
  | .invoke => [("name", ⟨true, .text⟩)]
  | .stringLiteral => [("value", ⟨true, .text⟩)]
  | .integerLiteral => [("value", ⟨true, .integer⟩)]
  | .floatLiteral => [("value", ⟨true, .number⟩)]
  | .booleanLiteral => [("value", ⟨true, .bool⟩)]
  | .listLiteral => [("elements", ⟨false, .list .expr⟩)]
  | .mapLiteral => [("entries", ⟨false, .list .entry⟩)]
  | .functionCall => [("path", ⟨true, .path⟩), ("arguments", ⟨false, .list .expr⟩)]
  | .condition =>
    [("test", ⟨true, .expr⟩), ("whenTrue", ⟨true, .expr⟩), ("whenFalse", ⟨true, .expr⟩)]
  | .loop => [("body", ⟨true, .expr⟩)]
  | .ret | .brk => [("argument", ⟨false, .expr⟩)]

end NodeType

/-- The node type an object names. -/
def nodeTypeOf (fields : Table Document) : Option NodeType :=
  match Table.find? fields "type" with
  | some (.string name) => NodeType.ofText? name
  | _ => none

/-- The fields of a node: its type, and those of its type. -/
def nodeSlots (fields : Table Document) : List (String × Slot) :=
  ("type", ⟨true, .nodeType⟩) :: (nodeTypeOf fields).elim [] NodeType.slots

namespace Role

/-- The fields of an object in that role. -/
def slots : Role → Table Document → List (String × Slot)
  | .module, fields => nodeSlots fields
  | .item, fields => nodeSlots fields
  | .expr, fields => nodeSlots fields
  | .entry, _ => [("key", ⟨true, .text⟩), ("value", ⟨true, .expr⟩)]
  | .path, _ => [("module", ⟨true, .text⟩), ("item", ⟨true, .text⟩)]
  | _, _ => []

/-- The value is an object, and no node that belongs somewhere else. -/
def FitsNode (r : Role) (d : Document) : Prop :=
  ∃ fields, d = .object fields ∧ ∀ t, nodeTypeOf fields = some t → t.sort = r

/-- The value by itself, without its parts, can have the role. -/
def Fits : Role → Document → Prop
  | .module, d => FitsNode .module d
  | .item, d => FitsNode .item d
  | .expr, d => FitsNode .expr d
  | .entry, d => ∃ fields, d = .object fields
  | .path, d => ∃ fields, d = .object fields
  | .nodeType, d => ∃ t : NodeType, d = .string t.text
  | .text, d => ∃ s, d = .string s
  | .integer, d => ∃ (number : Numeral) (n : Int32), d = .number number ∧ number.IsInteger n.toInt
  | .number, d => ∃ (number : Numeral) (x : Single), d = .number number ∧ number.RoundsTo x
  | .bool, d => ∃ b, d = .bool b
  | .list _, d => ∃ ds, d = .list ds

/-- The value with all its parts has the role. -/
def Holds : Role → Document → Prop
  | .module, d => ∃ m, d.DenotesModule m
  | .item, d => ∃ i, d.DenotesItem i
  | .expr, d => ∃ e, d.Denotes e
  | .entry, d => ∃ fields key v e, d = .object fields ∧
      Table.find? fields "key" = some (.string key) ∧ Table.find? fields "value" = some v ∧
      v.Denotes e
  | .path, d => ∃ fields module item, d = .object fields ∧
      Table.find? fields "module" = some (.string module) ∧
      Table.find? fields "item" = some (.string item)
  | .list member, d => ∃ ds, d = .list ds ∧ ∀ x ∈ ds, Holds member x
  | .nodeType, d => Fits .nodeType d
  | .text, d => Fits .text d
  | .integer, d => Fits .integer d
  | .number, d => Fits .number d
  | .bool, d => Fits .bool d

theorem not_fits_null (r : Role) : ¬ r.Fits .null := by
  cases r with
  | module | item | expr =>
    rintro ⟨fields, h, -⟩
    cases h
  | integer | number =>
    rintro ⟨number, x, h, -⟩
    cases h
  | entry | path | nodeType | text | bool | list =>
    rintro ⟨x, h⟩
    cases h

end Role

/-- Nothing is there, or null. -/
def Absent (x : Option Document) : Prop := x = none ∨ x = some .null

namespace Slot

/-- Something is missing, or the value that is there does not fit. -/
def Rejects (s : Slot) (x : Option Document) : Prop :=
  (s.required = true ∧ Absent x) ∨ ∃ v, x = some v ∧ v ≠ .null ∧ ¬ s.role.Fits v

/-- What is there has its role, or may be missing and is. -/
def Holds (s : Slot) (x : Option Document) : Prop :=
  (s.required = false ∧ Absent x) ∨ ∃ v, x = some v ∧ s.role.Holds v

end Slot

/-! ## Places -/

/-- The step leads to a place in the value. -/
def Step.InRange : Step → Document → Prop
  | .field _, .object _ => True
  | .index i, .list ds => i < ds.length
  | _, _ => False

namespace Document

/-- What is at a place. -/
def at? (d : Document) : Place → Option Document
  | [] => some d
  | .field key :: up =>
    match d.at? up with
    | some (.object fields) => Table.find? fields key
    | _ => none
  | .index i :: up =>
    match d.at? up with
    | some (.list ds) => ds[i]?
    | _ => none

theorem at?_append (d : Document) (q p : Place) :
    d.at? (q ++ p) = (d.at? p).bind fun inner => inner.at? q := by
  induction q with
  | nil => simp [at?]
  | cons step q ih => cases step <;> cases hp : d.at? p <;> simp [at?, ih, hp]

variable {d : Document} {p : Place} {slot : Slot}

/-- A document in the role of `top` asks for something at a place. -/
inductive Asks (top : Role) (d : Document) : Place → Slot → Prop
  | top : Asks top d [] ⟨true, top⟩
  | field {p : Place} {slot inner : Slot} {fields : Table Document} {key : String}
      (h : Asks top d p slot) (hobject : d.at? p = some (.object fields))
      (hkey : (key, inner) ∈ slot.role.slots fields) : Asks top d (.field key :: p) inner
  | index {p : Place} {required : Bool} {member : Role} {ds : List Document} {i : Nat}
      (h : Asks top d p ⟨required, .list member⟩) (hlist : d.at? p = some (.list ds))
      (hi : i < ds.length) : Asks top d (.index i :: p) ⟨true, member⟩

/-- Slots are only asked for where the document leads. -/
theorem Asks.in_range {top : Role} (h : d.Asks top p slot) :
    p = [] ∨ ∃ step up parent, p = step :: up ∧ d.at? up = some parent ∧ step.InRange parent := by
  cases h with
  | top => exact .inl rfl
  | field h hobject hkey => exact .inr ⟨_, _, _, rfl, hobject, trivial⟩
  | index h hlist hi => exact .inr ⟨_, _, _, rfl, hlist, hi⟩

/-! ## What the grammar derives -/

variable {fields : Table Document} {key : String} {t : NodeType} {r : Role}

theorem HasType.nodeTypeOf (h : HasType fields t) : nodeTypeOf fields = some t := by
  unfold Arbor.nodeTypeOf
  rw [h.eq]
  exact NodeType.ofText?_text t

theorem HasType.unique {t' : NodeType} (h : HasType fields t)
    (ht : Arbor.nodeTypeOf fields = some t') : t' = t :=
  Option.some.inj (ht.symm.trans h.nodeTypeOf)

/-- A node that is derived has a type, which says where it may stand. -/
theorem Denotes.typed {e : Expr} (h : d.Denotes e) :
    ∃ fields t, d = .object fields ∧ Arbor.nodeTypeOf fields = some t ∧ t.sort = .expr := by
  cases h <;> exact ⟨_, _, rfl, HasType.nodeTypeOf ‹HasType _ _›, rfl⟩

theorem DenotesItem.typed {i : Item} (h : d.DenotesItem i) :
    ∃ fields t, d = .object fields ∧ Arbor.nodeTypeOf fields = some t ∧ t.sort = .item := by
  cases h <;> exact ⟨_, _, rfl, HasType.nodeTypeOf ‹HasType _ _›, rfl⟩

theorem DenotesModule.typed {m : Module} (h : d.DenotesModule m) :
    ∃ fields t, d = .object fields ∧ Arbor.nodeTypeOf fields = some t ∧ t.sort = .module := by
  cases h with
  | items htype => exact ⟨_, _, rfl, htype.nodeTypeOf, rfl⟩

theorem fitsNode_of_typed
    (h : ∃ fields t, d = .object fields ∧ Arbor.nodeTypeOf fields = some t ∧ t.sort = r) :
    r.FitsNode d := by
  obtain ⟨fields, t, rfl, ht, hsort⟩ := h
  refine ⟨fields, rfl, fun t' ht' => ?_⟩
  rw [← hsort, Option.some.inj (ht'.symm.trans ht)]

theorem fits_of_holds (h : r.Holds d) : r.Fits d := by
  cases r with
  | module =>
    obtain ⟨m, h⟩ := h
    exact fitsNode_of_typed h.typed
  | item =>
    obtain ⟨i, h⟩ := h
    exact fitsNode_of_typed h.typed
  | expr =>
    obtain ⟨e, h⟩ := h
    exact fitsNode_of_typed h.typed
  | entry =>
    obtain ⟨fields, key, v, e, h, -⟩ := h
    exact ⟨fields, h⟩
  | path =>
    obtain ⟨fields, module, item, h, -⟩ := h
    exact ⟨fields, h⟩
  | list member =>
    obtain ⟨ds, h, -⟩ := h
    exact ⟨ds, h⟩
  | nodeType | text | integer | number | bool => exact h

theorem holds_slot {required : Bool} {x : Option Document} {v : Document} (hx : x = some v)
    (hv : r.Holds v) : Slot.Holds ⟨required, r⟩ x := .inr ⟨v, hx, hv⟩

theorem Members.holds_slot {ds : List Document} (h : Members fields key ds)
    (hds : ∀ x ∈ ds, r.Holds x) : Slot.Holds ⟨false, .list r⟩ (Table.find? fields key) := by
  cases h with
  | lacking h => exact .inl ⟨rfl, h⟩
  | list h => exact Document.holds_slot h ⟨ds, rfl, hds⟩

theorem Names.holds_slot {names : List String} (h : Names fields key names) :
    Slot.Holds ⟨false, .list .text⟩ (Table.find? fields key) :=
  Members.holds_slot h fun x hx => by
    obtain ⟨name, -, rfl⟩ := List.mem_map.1 hx
    exact ⟨name, rfl⟩

theorem DenotesAll.holds {ds : List Document} {es : List Expr} (h : DenotesAll ds es) :
    ∀ x ∈ ds, Role.expr.Holds x := by
  induction ds generalizing es with
  | nil => nofun
  | cons d ds ih =>
    cases h with
    | cons hd hds => exact List.forall_mem_cons.2 ⟨⟨_, hd⟩, ih hds⟩

theorem DenotesEntries.holds {ds : List Document} {es : List Entry} (h : DenotesEntries ds es) :
    ∀ x ∈ ds, Role.entry.Holds x := by
  induction ds generalizing es with
  | nil => nofun
  | cons d ds ih =>
    cases h with
    | cons hkey hvalue hv hds =>
      exact List.forall_mem_cons.2 ⟨⟨_, _, _, _, rfl, hkey, hvalue, hv⟩, ih hds⟩

theorem items_hold {ds : List Document} {items : List Item}
    (h : List.Forall₂ DenotesItem ds items) : ∀ x ∈ ds, Role.item.Holds x := by
  induction h with
  | nil => nofun
  | cons hitem _ ih => exact List.forall_mem_cons.2 ⟨⟨_, hitem⟩, ih⟩

theorem Denotes.slots {e : Expr} (h : (Document.object fields).Denotes e)
    (ht : Arbor.nodeTypeOf fields = some t) :
    ∀ p ∈ t.slots, p.2.Holds (Table.find? fields p.1) := by
  cases h with
  | block htype hds hes =>
    cases htype.unique ht
    exact List.forall_mem_singleton.2 (hds.holds_slot hes.holds)
  | assign htype hname hv he =>
    cases htype.unique ht
    exact List.forall_mem_cons.2 ⟨holds_slot hname ⟨_, rfl⟩,
      List.forall_mem_singleton.2 (holds_slot hv ⟨_, he⟩)⟩
  | var htype hname =>
    cases htype.unique ht
    exact List.forall_mem_singleton.2 (holds_slot hname ⟨_, rfl⟩)
  | string htype hs =>
    cases htype.unique ht
    exact List.forall_mem_singleton.2 (holds_slot hs ⟨_, rfl⟩)
  | integer htype hnumber hn =>
    cases htype.unique ht
    exact List.forall_mem_singleton.2 (holds_slot hnumber ⟨_, _, rfl, hn⟩)
  | float htype hnumber hx =>
    cases htype.unique ht
    exact List.forall_mem_singleton.2 (holds_slot hnumber ⟨_, _, rfl, hx⟩)
  | bool htype hb =>
    cases htype.unique ht
    exact List.forall_mem_singleton.2 (holds_slot hb ⟨_, rfl⟩)
  | list htype hds hes =>
    cases htype.unique ht
    exact List.forall_mem_singleton.2 (hds.holds_slot hes.holds)
  | map htype hds hes =>
    cases htype.unique ht
    exact List.forall_mem_singleton.2 (hds.holds_slot hes.holds)
  | call htype hpath hmodule hitem hds hes =>
    cases htype.unique ht
    exact List.forall_mem_cons.2 ⟨holds_slot hpath ⟨_, _, _, rfl, hmodule, hitem⟩,
      List.forall_mem_singleton.2 (hds.holds_slot hes.holds)⟩
  | cond htype hdt htest hda ha hdb hb =>
    cases htype.unique ht
    exact List.forall_mem_cons.2 ⟨holds_slot hdt ⟨_, htest⟩, List.forall_mem_cons.2
      ⟨holds_slot hda ⟨_, ha⟩, List.forall_mem_singleton.2 (holds_slot hdb ⟨_, hb⟩)⟩⟩
  | loop htype hb he =>
    cases htype.unique ht
    exact List.forall_mem_singleton.2 (holds_slot hb ⟨_, he⟩)
  | ret htype ha he | brk htype ha he =>
    cases htype.unique ht
    exact List.forall_mem_singleton.2 (holds_slot ha ⟨_, he⟩)
  | retNothing htype hl | brkNothing htype hl =>
    cases htype.unique ht
    exact List.forall_mem_singleton.2 (.inl ⟨rfl, hl⟩)

theorem DenotesItem.slots {i : Item} (h : (Document.object fields).DenotesItem i)
    (ht : Arbor.nodeTypeOf fields = some t) :
    ∀ p ∈ t.slots, p.2.Holds (Table.find? fields p.1) := by
  cases h with
  | exports htype hnames =>
    cases htype.unique ht
    exact List.forall_mem_singleton.2 hnames.holds_slot
  | imports htype hmodule hnames =>
    cases htype.unique ht
    exact List.forall_mem_cons.2 ⟨holds_slot hmodule ⟨_, rfl⟩,
      List.forall_mem_singleton.2 hnames.holds_slot⟩
  | define htype hname hparameters hb he =>
    cases htype.unique ht
    exact List.forall_mem_cons.2 ⟨holds_slot hname ⟨_, rfl⟩, List.forall_mem_cons.2
      ⟨hparameters.holds_slot, List.forall_mem_singleton.2 (holds_slot hb ⟨_, he⟩)⟩⟩
  | bodyless htype hname hparameters hl =>
    cases htype.unique ht
    exact List.forall_mem_cons.2 ⟨holds_slot hname ⟨_, rfl⟩, List.forall_mem_cons.2
      ⟨hparameters.holds_slot, List.forall_mem_singleton.2 (.inl ⟨rfl, hl⟩)⟩⟩

theorem DenotesModule.slots {m : Module} (h : (Document.object fields).DenotesModule m)
    (ht : Arbor.nodeTypeOf fields = some t) :
    ∀ p ∈ t.slots, p.2.Holds (Table.find? fields p.1) := by
  cases h with
  | items htype hds hitems =>
    cases htype.unique ht
    exact List.forall_mem_singleton.2 (holds_slot hds ⟨_, rfl, items_hold hitems⟩)

theorem nodeSlots_hold (ht : Arbor.nodeTypeOf fields = some t)
    (h : ∀ p ∈ t.slots, p.2.Holds (Table.find? fields p.1)) :
    ∀ p ∈ nodeSlots fields, p.2.Holds (Table.find? fields p.1) := by
  have htype : ∃ name, Table.find? fields "type" = some (.string name) ∧ t.text = name := by
    unfold Arbor.nodeTypeOf at ht
    split at ht
    next name hname => exact ⟨name, hname, Decode.text_of_ofText? ht⟩
    next => cases ht
  obtain ⟨name, hname, rfl⟩ := htype
  unfold nodeSlots
  rw [ht]
  exact List.forall_mem_cons.2 ⟨holds_slot hname ⟨t, rfl⟩, h⟩

theorem slots_hold (h : r.Holds (.object fields)) :
    ∀ p ∈ r.slots fields, p.2.Holds (Table.find? fields p.1) := by
  cases r with
  | module =>
    obtain ⟨m, h⟩ := h
    obtain ⟨_, t, hobject, ht, -⟩ := h.typed
    cases hobject
    exact nodeSlots_hold ht (h.slots ht)
  | item =>
    obtain ⟨i, h⟩ := h
    obtain ⟨_, t, hobject, ht, -⟩ := h.typed
    cases hobject
    exact nodeSlots_hold ht (h.slots ht)
  | expr =>
    obtain ⟨e, h⟩ := h
    obtain ⟨_, t, hobject, ht, -⟩ := h.typed
    cases hobject
    exact nodeSlots_hold ht (h.slots ht)
  | entry =>
    obtain ⟨_, key, v, e, hobject, hkey, hvalue, hv⟩ := h
    cases hobject
    exact List.forall_mem_cons.2 ⟨holds_slot hkey ⟨_, rfl⟩,
      List.forall_mem_singleton.2 (holds_slot hvalue ⟨_, hv⟩)⟩
  | path =>
    obtain ⟨_, module, item, hobject, hmodule, hitem⟩ := h
    cases hobject
    exact List.forall_mem_cons.2 ⟨holds_slot hmodule ⟨_, rfl⟩,
      List.forall_mem_singleton.2 (holds_slot hitem ⟨_, rfl⟩)⟩
  | nodeType | text | integer | number | bool | list => nofun

theorem Asks.holds {top : Role} (hd : top.Holds d) (h : d.Asks top p slot) :
    slot.Holds (d.at? p) := by
  induction h with
  | top => exact holds_slot rfl hd
  | @field p slot inner fields key _ hobject hkey ih =>
    have hinner : d.at? (.field key :: p) = Table.find? fields key := by simp only [at?, hobject]
    rw [hobject] at ih
    obtain ⟨-, hnone | hnull⟩ | ⟨v, hv, hrole⟩ := ih
    · cases hnone
    · cases hnull
    · cases hv
      rw [hinner]
      exact slots_hold hrole _ hkey
  | @index p required member ds i _ hlist hi ih =>
    have hmember : d.at? (.index i :: p) = some ds[i] := by simp only [at?, hlist, hi, getElem?_pos]
    rw [hlist] at ih
    obtain ⟨-, hnone | hnull⟩ | ⟨v, hv, ds', hds', hall⟩ := ih
    · cases hnone
    · cases hnull
    · cases hv
      cases hds'
      exact holds_slot hmember (hall _ (List.getElem_mem hi))

theorem Asks.not_rejects {top : Role} (hd : top.Holds d) (h : d.Asks top p slot) :
    ¬ slot.Rejects (d.at? p) := by
  have hholds := h.holds hd
  rintro (⟨hrequired, habsent⟩ | ⟨v, hv, hne, hfits⟩)
  · obtain ⟨hoptional, -⟩ | ⟨v, hv, hrole⟩ := hholds
    · cases hrequired.symm.trans hoptional
    · obtain hnone | hnull := habsent
      · cases hv.symm.trans hnone
      · cases hv.symm.trans hnull
        exact Role.not_fits_null _ (fits_of_holds hrole)
  · obtain ⟨-, hnone | hnull⟩ | ⟨v', hv', hrole⟩ := hholds
    · cases hv.symm.trans hnone
    · cases hv.symm.trans hnull
      exact hne rfl
    · cases hv.symm.trans hv'
      exact hfits (fits_of_holds hrole)

end Document

end Arbor
