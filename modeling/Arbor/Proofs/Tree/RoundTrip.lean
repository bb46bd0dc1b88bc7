import Arbor.Format
import Arbor.Proofs.Text.Utf8
import Arbor.Tree.Encode
import Mathlib.Data.List.Forall2

/-!
Trees survive being written down.

`Written` says which documents are spellings of a tree: a node is an object with its type and its
fields, a list without members may be null, and so may the argument of a jump and the body of a
function that are missing. The encoder writes such a spelling of every tree that lacks nothing
(`Expr.encoded`), and every spelling is read as the tree it was made from (`Written.node`),
whatever the place in the document.
-/

set_option autoImplicit false

namespace Arbor

/-! ## Integer literals -/

theorem digitsValue_toDigits (n : Nat) : digitsValue 0 (Nat.toDigits 10 n) = n := by
  have h : digitsValue 0 (Nat.toDigits 10 n) = Nat.ofDigitChars 10 (Nat.toDigits 10 n) 0 := by
    simp only [digitsValue, Nat.ofDigitChars, Nat.mul_comm]
    rfl
  rw [h, Nat.ofDigitChars_toDigits (by decide) (by decide)]

theorem all_isDigit_toDigits (n : Nat) : (Nat.toDigits 10 n).all Char.isDigit = true :=
  List.all_eq_true.2 fun _ hc => Nat.isDigit_of_mem_toDigits (by decide) (by decide) hc

namespace Decode

theorem integerLiteral?_digits {s : String} {n : Nat} (h : s.toList = Nat.toDigits 10 n) :
    integerLiteral? s = some (n : Int) := by
  unfold integerLiteral?
  rw [h]
  have hall := all_isDigit_toDigits n
  have hvalue := digitsValue_toDigits n
  cases hds : Nat.toDigits 10 n with
  | nil => exact absurd hds Nat.toDigits_ne_nil
  | cons c cs =>
    rw [hds] at hall hvalue
    have hc : c ≠ '-' := by
      rintro rfl
      simp at hall
    split
    next heq =>
      split at heq
      · next hcons => exact absurd (List.cons.inj hcons).1 hc
      · cases heq
        simp [hall, hvalue]

theorem integerLiteral?_minus {s : String} {n : Nat} (h : s.toList = '-' :: Nat.toDigits 10 n) :
    integerLiteral? s = some (-(n : Int)) := by
  simp [integerLiteral?, h, all_isDigit_toDigits, digitsValue_toDigits, Nat.toDigits_ne_nil]

theorem integerLiteral?_toString (n : Int) : integerLiteral? (toString n) = some n := by
  rw [Int.toString_eq_repr]
  cases n with
  | ofNat k => exact integerLiteral?_digits Nat.toList_repr
  | negSucc k =>
    have h : (Int.negSucc k).repr.toList = '-' :: Nat.toDigits 10 (k + 1) := by
      rw [Int.repr, String.toList_append, Nat.toList_repr]
      rfl
    exact integerLiteral?_minus h

theorem integer_toString (place : Place) (n : Int32) :
    integer place (some (.number (.literal (toString n.toInt)))) = .ok n := by
  have hlow := n.le_toInt
  have hhigh := n.toInt_lt
  have h64 : inRange64 n.toInt = true := by
    simp only [inRange64, Bool.and_eq_true, decide_eq_true_eq]
    omega
  have h32 : inRange32 n.toInt = true := by
    simp only [inRange32, Bool.and_eq_true, decide_eq_true_eq]
    omega
  simp only [integer, integerLiteral?_toString, h64, if_true, checkRange, h32, Int32.ofInt_toInt]

end Decode

/-! ## Fields -/

namespace Table

variable {α : Type}

/-- The table has all these pairs. -/
def Has (t : Table α) : List (String × α) → Prop
  | [] => True
  | (key, x) :: pairs => find? t key = some x ∧ Has t pairs

theorem has_foldl_insert : ∀ (pairs : List (String × α)) (t : Table α),
    (pairs.map Prod.fst).Nodup → Has (pairs.foldl (fun t p => insert t p.1 p.2) t) pairs
  | [], _, _ => trivial
  | p :: pairs, t, h => by
    obtain ⟨hfresh, hrest⟩ := List.nodup_cons.1 h
    refine ⟨?_, has_foldl_insert pairs _ hrest⟩
    rw [List.foldl_cons, find?_foldl_insert pairs _ hfresh, find?_insert, if_pos rfl]

theorem has_ofPairs (pairs : List (String × α)) (h : (pairs.map Prod.fst).Nodup) :
    Has (ofPairs pairs) pairs :=
  has_foldl_insert pairs [] h

end Table

/-- An object that has all these fields. -/
def Document.HasFields (d : Document) (pairs : List (String × Document)) : Prop :=
  ∃ fields, d = .object fields ∧ Table.Has fields pairs

def Document.IsNode (d : Document) (type : NodeType) (pairs : List (String × Document)) : Prop :=
  d.HasFields (("type", .string type.text) :: pairs)

theorem Encode.isNode {type : NodeType} {pairs : List (String × Document)}
    (h : ("type" :: pairs.map Prod.fst).Nodup) : (nodeObject type pairs).IsNode type pairs :=
  ⟨_, rfl, Table.has_ofPairs _ h⟩

/-! ## Spellings -/

/-- The literal is read as this number. -/
def Single.ReadFrom (x : Single) (literal : String) : Prop :=
  ((Decimal.parse? literal.toList).bind Decimal.toDouble?).map Double.toSingle = some x

/-- The members of a list; a list without members may be null. -/
inductive Document.Lists : Document → List Document → Prop where
  | list (ds : List Document) : Lists (.list ds) ds
  | null : Lists .null []

mutual

/-- The document is a spelling of the expression. -/
inductive Expr.Written : Expr → Document → Prop where
  | block {es : List Expr} {ds : List Document} {d l : Document} :
      d.IsNode .block [("expressions", l)] → l.Lists ds → Expr.WrittenAll es ds →
      Expr.Written (.block es) d
  | assign {name : String} {e : Expr} {d v : Document} :
      d.IsNode .assignment [("name", .string name), ("value", v)] → Expr.Written e v →
      Expr.Written (.assign name e) d
  | var {name : String} {d : Document} :
      d.IsNode .invoke [("name", .string name)] → Expr.Written (.var name) d
  | string {s : String} {d : Document} :
      d.IsNode .stringLiteral [("value", .string s)] → Expr.Written (.string s) d
  | integer {n : Int32} {d : Document} :
      d.IsNode .integerLiteral [("value", .number (.literal (toString n.toInt)))] →
      Expr.Written (.integer n) d
  | float {x : Single} {literal : String} {d : Document} :
      d.IsNode .floatLiteral [("value", .number (.literal literal))] → x.ReadFrom literal →
      Expr.Written (.float x) d
  | bool {b : Bool} {d : Document} :
      d.IsNode .booleanLiteral [("value", .bool b)] → Expr.Written (.bool b) d
  | list {es : List Expr} {ds : List Document} {d l : Document} :
      d.IsNode .listLiteral [("elements", l)] → l.Lists ds → Expr.WrittenAll es ds →
      Expr.Written (.list es) d
  | map {es : List Entry} {ds : List Document} {d l : Document} :
      d.IsNode .mapLiteral [("entries", l)] → l.Lists ds → Expr.WrittenEntries es ds →
      Expr.Written (.map es) d
  | call {path : Path} {es : List Expr} {ds : List Document} {d p l : Document} :
      d.IsNode .functionCall [("path", p), ("arguments", l)] →
      p.HasFields [("module", .string path.module), ("item", .string path.item)] → l.Lists ds →
      Expr.WrittenAll es ds → Expr.Written (.call path es) d
  | cond {test a b : Expr} {d dt da db : Document} :
      d.IsNode .condition [("test", dt), ("whenTrue", da), ("whenFalse", db)] →
      Expr.Written test dt → Expr.Written a da → Expr.Written b db →
      Expr.Written (.cond test a b) d
  | loop {e : Expr} {d b : Document} :
      d.IsNode .loop [("body", b)] → Expr.Written e b → Expr.Written (.loop e) d
  | ret {e : Expr} {d a : Document} :
      d.IsNode .ret [("argument", a)] → Expr.Written e a → Expr.Written (.ret e) d
  | retNothing {d : Document} :
      d.IsNode .ret [("argument", .null)] → Expr.Written (.ret .absent) d
  | brk {e : Expr} {d a : Document} :
      d.IsNode .brk [("argument", a)] → Expr.Written e a → Expr.Written (.brk e) d
  | brkNothing {d : Document} :
      d.IsNode .brk [("argument", .null)] → Expr.Written (.brk .absent) d

inductive Expr.WrittenAll : List Expr → List Document → Prop where
  | nil : Expr.WrittenAll [] []
  | cons {e : Expr} {es : List Expr} {d : Document} {ds : List Document} :
      Expr.Written e d → Expr.WrittenAll es ds → Expr.WrittenAll (e :: es) (d :: ds)

inductive Expr.WrittenEntries : List Entry → List Document → Prop where
  | nil : Expr.WrittenEntries [] []
  | cons {key : String} {e : Expr} {es : List Entry} {d v : Document} {ds : List Document} :
      d.HasFields [("key", .string key), ("value", v)] → Expr.Written e v →
      Expr.WrittenEntries es ds → Expr.WrittenEntries (.field key e :: es) (d :: ds)

end

inductive Item.Written : Item → Document → Prop where
  | define {name : String} {ps : List String} {es : List Expr} {d l b : Document} :
      d.IsNode .functionDefinition [("name", .string name), ("parameters", l), ("body", b)] →
      l.Lists (ps.map .string) → (Expr.block es).Written b →
      Item.Written (.define ⟨name, ps, some es⟩) d
  | bodyless {name : String} {ps : List String} {d l : Document} :
      d.IsNode .functionDefinition [("name", .string name), ("parameters", l), ("body", .null)] →
      l.Lists (ps.map .string) → Item.Written (.define ⟨name, ps, none⟩) d
  | exports {ns : List String} {d l : Document} :
      d.IsNode .exportItem [("names", l)] → l.Lists (ns.map .string) → Item.Written (.exports ns) d
  | imports {module : String} {ns : List String} {d l : Document} :
      d.IsNode .importItem [("module", .string module), ("items", l)] →
      l.Lists (ns.map .string) → Item.Written (.imports module ns) d

/-- The items have to be a list, also if there are none. -/
inductive Module.Written : Module → Document → Prop where
  | items {items : List Item} {ds : List Document} {d : Document} :
      d.IsNode .module [("items", .list ds)] → List.Forall₂ Item.Written items ds →
      Module.Written ⟨items⟩ d

/-! ## Trees that lack nothing -/

mutual

/-- Nothing is missing but what may be, and the numbers are of the given kind. -/
def Expr.Complete (numbers : Single → Prop) : Expr → Prop
  | .absent => False
  | .empty _ => False
  | .block es => Expr.CompleteAll numbers es
  | .assign _ e => e.Complete numbers
  | .var _ => True
  | .string _ => True
  | .integer _ => True
  | .float x => numbers x
  | .bool _ => True
  | .list es => Expr.CompleteAll numbers es
  | .map es => Expr.CompleteEntries numbers es
  | .call _ es => Expr.CompleteAll numbers es
  | .cond test a b => test.Complete numbers ∧ a.Complete numbers ∧ b.Complete numbers
  | .loop e => e.Complete numbers
  | .ret e => e = .absent ∨ e.Complete numbers
  | .brk e => e = .absent ∨ e.Complete numbers

def Expr.CompleteAll (numbers : Single → Prop) : List Expr → Prop
  | [] => True
  | e :: es => e.Complete numbers ∧ Expr.CompleteAll numbers es

def Expr.CompleteEntries (numbers : Single → Prop) : List Entry → Prop
  | [] => True
  | .blank :: _ => False
  | .field _ e :: es => e.Complete numbers ∧ Expr.CompleteEntries numbers es

end

def Item.Complete (numbers : Single → Prop) : Item → Prop
  | .define d => ∀ es, d.body = some es → Expr.CompleteAll numbers es
  | .exports _ => True
  | .imports .. => True

def Module.Complete (numbers : Single → Prop) (m : Module) : Prop :=
  ∀ i ∈ m.items, i.Complete numbers

/-! ## The encoder writes a spelling -/

section

variable {numbers : Single → Prop}

/-- Each of the numbers has a literal, which is read as the number. -/
def Legible (numbers : Single → Prop) : Prop :=
  ∀ x, numbers x →
    ∃ literal, Encode.float? x = some (.number (.literal literal)) ∧ x.ReadFrom literal

theorem Encode.lists_names (ns : List String) : (names ns).Lists (ns.map .string) := by
  cases ns with
  | nil => exact .null
  | cons n ns => exact .list _

mutual

theorem Expr.encoded (hn : Legible numbers) : ∀ e : Expr, e.Complete numbers →
    ∃ d, Encode.expr e = some d ∧ e.Written d
  | .block es, h => by
    obtain ⟨ds, hds, hw⟩ := Expr.encodedAll hn es h
    exact ⟨_, by simp [Encode.expr, hds], .block (Encode.isNode (by simp)) (.list ds) hw⟩
  | .assign name e, h => by
    obtain ⟨d, hd, hw⟩ := Expr.encoded hn e h
    exact ⟨_, by simp [Encode.expr, hd], .assign (Encode.isNode (by simp)) hw⟩
  | .var name, _ => ⟨_, rfl, .var (Encode.isNode (by simp))⟩
  | .string s, _ => ⟨_, rfl, .string (Encode.isNode (by simp))⟩
  | .integer n, _ => ⟨_, rfl, .integer (Encode.isNode (by simp))⟩
  | .float x, h => by
    obtain ⟨literal, hx, hread⟩ := hn x h
    exact ⟨_, by simp [Encode.expr, hx], .float (Encode.isNode (by simp)) hread⟩
  | .bool b, _ => ⟨_, rfl, .bool (Encode.isNode (by simp))⟩
  | .list es, h => by
    obtain ⟨ds, hds, hw⟩ := Expr.encodedAll hn es h
    exact ⟨_, by simp [Encode.expr, hds], .list (Encode.isNode (by simp)) (.list ds) hw⟩
  | .map es, h => by
    obtain ⟨ds, hds, hw⟩ := Expr.encodedEntries hn es h
    exact ⟨_, by simp [Encode.expr, hds], .map (Encode.isNode (by simp)) (.list ds) hw⟩
  | .call path es, h => by
    obtain ⟨ds, hds, hw⟩ := Expr.encodedAll hn es h
    have hpath : Table.Has [("item", .string path.item), ("module", .string path.module)]
        [("module", Document.string path.module), ("item", .string path.item)] := by
      simp [Table.Has, Table.find?]
    exact ⟨_, by simp [Encode.expr, hds],
      .call (Encode.isNode (by simp)) ⟨_, rfl, hpath⟩ (.list ds) hw⟩
  | .cond test a b, h => by
    obtain ⟨dt, hdt, hwt⟩ := Expr.encoded hn test h.1
    obtain ⟨da, hda, hwa⟩ := Expr.encoded hn a h.2.1
    obtain ⟨db, hdb, hwb⟩ := Expr.encoded hn b h.2.2
    exact ⟨_, by simp [Encode.expr, hdt, hda, hdb], .cond (Encode.isNode (by simp)) hwt hwa hwb⟩
  | .loop e, h => by
    obtain ⟨d, hd, hw⟩ := Expr.encoded hn e h
    exact ⟨_, by simp [Encode.expr, hd], .loop (Encode.isNode (by simp)) hw⟩
  | .ret e, h => by
    obtain rfl | h := h
    · exact ⟨_, rfl, .retNothing (Encode.isNode (by simp))⟩
    · obtain ⟨d, hd, hw⟩ := Expr.encoded hn e h
      exact ⟨_, by simp [Encode.expr, hd], .ret (Encode.isNode (by simp)) hw⟩
  | .brk e, h => by
    obtain rfl | h := h
    · exact ⟨_, rfl, .brkNothing (Encode.isNode (by simp))⟩
    · obtain ⟨d, hd, hw⟩ := Expr.encoded hn e h
      exact ⟨_, by simp [Encode.expr, hd], .brk (Encode.isNode (by simp)) hw⟩

theorem Expr.encodedAll (hn : Legible numbers) : ∀ es : List Expr, Expr.CompleteAll numbers es →
    ∃ ds, Encode.exprs es = some ds ∧ Expr.WrittenAll es ds
  | [], _ => ⟨[], rfl, .nil⟩
  | e :: es, h => by
    obtain ⟨d, hd, hw⟩ := Expr.encoded hn e h.1
    obtain ⟨ds, hds, hws⟩ := Expr.encodedAll hn es h.2
    exact ⟨_, by simp [Encode.exprs, hd, hds], .cons hw hws⟩

theorem Expr.encodedEntries (hn : Legible numbers) : ∀ es : List Entry,
    Expr.CompleteEntries numbers es → ∃ ds, Encode.entries es = some ds ∧ Expr.WrittenEntries es ds
  | [], _ => ⟨[], rfl, .nil⟩
  | .field key e :: es, h => by
    obtain ⟨v, hv, hw⟩ := Expr.encoded hn e h.1
    obtain ⟨ds, hds, hws⟩ := Expr.encodedEntries hn es h.2
    obtain ⟨-, hfields⟩ := Table.has_ofPairs
      [("type", Document.string "MapEntry"), ("key", .string key), ("value", v)] (by simp)
    exact ⟨_, by simp [Encode.entries, hv, hds], .cons ⟨_, rfl, hfields⟩ hw hws⟩

end

theorem Item.encoded (hn : Legible numbers) (i : Item) (h : i.Complete numbers) :
    ∃ d, Encode.item i = some d ∧ i.Written d := by
  cases i with
  | define definition =>
    obtain ⟨name, ps, body⟩ := definition
    have hps := Encode.lists_names ps
    cases body with
    | none => exact ⟨_, rfl, .bodyless (Encode.isNode (by simp)) hps⟩
    | some es =>
      obtain ⟨d, hd, hw⟩ := Expr.encoded hn (.block es) (h es rfl)
      exact ⟨_, by simp [Encode.item, hd], .define (Encode.isNode (by simp)) hps hw⟩
  | exports ns => exact ⟨_, rfl, .exports (Encode.isNode (by simp)) (Encode.lists_names ns)⟩
  | imports module ns => exact ⟨_, rfl, .imports (Encode.isNode (by simp)) (Encode.lists_names ns)⟩

theorem Item.encodedAll (hn : Legible numbers) (items : List Item)
    (h : ∀ i ∈ items, i.Complete numbers) :
    ∃ ds, items.mapM Encode.item = some ds ∧ List.Forall₂ Item.Written items ds := by
  induction items with
  | nil => exact ⟨[], rfl, .nil⟩
  | cons i items ih =>
    obtain ⟨d, hd, hw⟩ := i.encoded hn (h i List.mem_cons_self)
    obtain ⟨ds, hds, hws⟩ := ih fun j hj => h j (List.mem_cons_of_mem i hj)
    exact ⟨d :: ds, by simp [List.mapM_cons, hd, hds], .cons hw hws⟩

theorem Module.encoded (hn : Legible numbers) (m : Module) (h : m.Complete numbers) :
    ∃ d, Encode.module m = some d ∧ m.Written d := by
  obtain ⟨items⟩ := m
  obtain ⟨ds, hds, hw⟩ := Item.encodedAll hn items h
  exact ⟨_, by simp [Encode.module, hds], .items (Encode.isNode (by simp)) hw⟩

end

/-! ## Every spelling is read as the tree -/

theorem NodeType.ofText?_text (t : NodeType) : NodeType.ofText? t.text = some t := by
  cases t <;> decide

namespace Decode

theorem exprField_cons (key : String) (place : Place) (k : String) (d : Document)
    (rest : Table Document) : exprField key place ((k, d) :: rest) =
      if k = key then exprField key place [(key, d)] else exprField key place rest := by
  by_cases hk : k = key <;> cases d <;> simp [exprField, hk]

theorem exprsField_cons (key : String) (place : Place) (k : String) (d : Document)
    (rest : Table Document) : exprsField key place ((k, d) :: rest) =
      if k = key then exprsField key place [(key, d)] else exprsField key place rest := by
  by_cases hk : k = key <;> cases d <;> simp [exprsField, hk]

theorem entriesField_cons (place : Place) (k : String) (d : Document) (rest : Table Document) :
    entriesField place ((k, d) :: rest) =
      if k = "entries" then entriesField place [("entries", d)] else entriesField place rest := by
  by_cases hk : k = "entries" <;> cases d <;> simp [entriesField, hk]

theorem itemsField_cons (place : Place) (k : String) (d : Document) (rest : Table Document) :
    itemsField place ((k, d) :: rest) =
      if k = "items" then itemsField place [("items", d)] else itemsField place rest := by
  by_cases hk : k = "items" <;> cases d <;> simp [itemsField, hk]

/-- What goes through a table for the field with a key sees that field alone. -/
theorem eq_of_find? {α : Type} {read : Table Document → α} {key : String}
    (hread : ∀ k d rest, read ((k, d) :: rest) = if k = key then read [(key, d)] else read rest)
    {fields : Table Document} {d : Document} (h : Table.find? fields key = some d) :
    read fields = read [(key, d)] := by
  induction fields with
  | nil => cases h
  | cons p rest ih =>
    obtain ⟨k, d'⟩ := p
    rw [hread]
    by_cases hk : k = key
    · rw [Table.find?, if_pos hk] at h
      cases h
      exact if_pos hk
    · rw [Table.find?, if_neg hk] at h
      rw [if_neg hk, ih h]

theorem exprField_node {key : String} {place : Place} {fields : Table Document} {d : Document}
    {e : Expr} (h : Table.find? fields key = some d)
    (hd : node (.field key :: place) d = .ok (.expr e)) :
    exprField key place fields = .ok (some e) := by
  rw [eq_of_find? (exprField_cons key place) h]
  cases d with
  | null => cases hd
  | _ => simp [exprField, hd, asExpr]

theorem exprField_null {key : String} {place : Place} {fields : Table Document}
    (h : Table.find? fields key = some .null) : exprField key place fields = .ok none := by
  rw [eq_of_find? (exprField_cons key place) h]
  simp [exprField]

theorem exprsField_lists {key : String} {place : Place} {fields : Table Document} {d : Document}
    {ds : List Document} {es : List Expr} (h : Table.find? fields key = some d) (hd : d.Lists ds)
    (hds : exprs (.field key :: place) 0 ds = .ok es) : exprsField key place fields = .ok es := by
  rw [eq_of_find? (exprsField_cons key place) h]
  cases hd <;> simpa [exprsField, exprs] using hds

theorem entriesField_lists {place : Place} {fields : Table Document} {d : Document}
    {ds : List Document} {es : List Entry} (h : Table.find? fields "entries" = some d)
    (hd : d.Lists ds) (hds : entries (.field "entries" :: place) 0 ds = .ok es) :
    entriesField place fields = .ok es := by
  rw [eq_of_find? (entriesField_cons place) h]
  cases hd <;> simpa [entriesField, entries] using hds

theorem itemsField_list {place : Place} {fields : Table Document} {ds : List Document}
    (h : Table.find? fields "items" = some (.list ds)) :
    itemsField place fields = itemList (.field "items" :: place) 0 ds := by
  rw [eq_of_find? (itemsField_cons place) h]
  simp [itemsField]

theorem names_map (place : Place) (ns : List String) :
    ∀ i, names place i (ns.map .string) = .ok ns := by
  induction ns with
  | nil => exact fun i => rfl
  | cons n ns ih =>
    intro i
    simp only [List.map_cons, names, ih]
    rfl

theorem nameList_lists {fields : Table Document} {key : String} {place : Place} {d : Document}
    {ns : List String} (h : Table.find? fields key = some d) (hd : d.Lists (ns.map .string)) :
    nameList fields key place = .ok ns := by
  unfold nameList
  rw [h]
  generalize hds : ns.map Document.string = ds at hd
  cases hd with
  | list ds => exact hds ▸ names_map _ ns 0
  | null =>
    obtain rfl := List.map_eq_nil_iff.1 hds
    rfl

theorem stringField_found {fields : Table Document} {key s : String} {place : Place}
    (h : Table.find? fields key = some (.string s)) : stringField fields key place = .ok s := by
  simp only [stringField, h]

theorem path_found {fields : Table Document} {place : Place} {p : Document} {path : Path}
    (h : Table.find? fields "path" = some p)
    (hp : p.HasFields [("module", .string path.module), ("item", .string path.item)]) :
    Decode.path fields place = .ok path := by
  obtain ⟨inner, rfl, hmodule, hitem, -⟩ := hp
  simp only [Decode.path, h, stringField_found hmodule, stringField_found hitem]
  rfl

theorem float_literal {x : Single} {literal : String} (h : x.ReadFrom literal) (place : Place) :
    float place (some (.number (.literal literal))) = .ok x := by
  obtain ⟨y, hy, rfl⟩ := Option.map_eq_some_iff.1 h
  simp only [float, hy]

end Decode

mutual

theorem Expr.Written.node {e : Expr} {d : Document} : e.Written d → ∀ place : Place,
    Decode.node place d = .ok (.expr e)
  | .block ⟨fields, hd, htype, hlist, _⟩ hl hes, place => by
    subst hd
    have h := Decode.exprsField_lists hlist hl (hes.exprs (.field "expressions" :: place) 0)
    simp only [Decode.node, htype, NodeType.ofText?_text, h]
    rfl
  | .assign ⟨fields, hd, htype, hname, hvalue, _⟩ hw, place => by
    subst hd
    have h := Decode.exprField_node hvalue (hw.node (.field "value" :: place))
    simp only [Decode.node, htype, NodeType.ofText?_text, Decode.stringField_found hname, h]
    rfl
  | .var ⟨fields, hd, htype, hname, _⟩, place => by
    subst hd
    simp only [Decode.node, htype, NodeType.ofText?_text, Decode.stringField_found hname]
    rfl
  | .string ⟨fields, hd, htype, hvalue, _⟩, place => by
    subst hd
    simp only [Decode.node, htype, NodeType.ofText?_text, Decode.stringField_found hvalue]
    rfl
  | .integer ⟨fields, hd, htype, hvalue, _⟩, place => by
    subst hd
    simp only [Decode.node, htype, NodeType.ofText?_text, hvalue, Decode.integer_toString]
    rfl
  | .float ⟨fields, hd, htype, hvalue, _⟩ hx, place => by
    subst hd
    simp only [Decode.node, htype, NodeType.ofText?_text, hvalue, Decode.float_literal hx]
    rfl
  | .bool ⟨fields, hd, htype, hvalue, _⟩, place => by
    subst hd
    simp only [Decode.node, htype, NodeType.ofText?_text, hvalue]
  | .list ⟨fields, hd, htype, hlist, _⟩ hl hes, place => by
    subst hd
    have h := Decode.exprsField_lists hlist hl (hes.exprs (.field "elements" :: place) 0)
    simp only [Decode.node, htype, NodeType.ofText?_text, h]
    rfl
  | .map ⟨fields, hd, htype, hlist, _⟩ hl hes, place => by
    subst hd
    have h := Decode.entriesField_lists hlist hl (hes.entries (.field "entries" :: place) 0)
    simp only [Decode.node, htype, NodeType.ofText?_text, h]
    rfl
  | .call ⟨fields, hd, htype, hpath, hlist, _⟩ hp hl hes, place => by
    subst hd
    have h := Decode.exprsField_lists hlist hl (hes.exprs (.field "arguments" :: place) 0)
    simp only [Decode.node, htype, NodeType.ofText?_text, Decode.path_found hpath hp, h]
    rfl
  | .cond ⟨fields, hd, htype, htest, ha, hb, _⟩ hwt hwa hwb, place => by
    subst hd
    have ht := Decode.exprField_node htest (hwt.node (.field "test" :: place))
    have ha := Decode.exprField_node ha (hwa.node (.field "whenTrue" :: place))
    have hb := Decode.exprField_node hb (hwb.node (.field "whenFalse" :: place))
    simp only [Decode.node, htype, NodeType.ofText?_text, ht, ha, hb]
    rfl
  | .loop ⟨fields, hd, htype, hbody, _⟩ hw, place => by
    subst hd
    have h := Decode.exprField_node hbody (hw.node (.field "body" :: place))
    simp only [Decode.node, htype, NodeType.ofText?_text, h]
    rfl
  | .ret ⟨fields, hd, htype, hargument, _⟩ hw, place => by
    subst hd
    have h := Decode.exprField_node hargument (hw.node (.field "argument" :: place))
    simp only [Decode.node, htype, NodeType.ofText?_text, h]
    rfl
  | .retNothing ⟨fields, hd, htype, hargument, _⟩, place => by
    subst hd
    simp only [Decode.node, htype, NodeType.ofText?_text, Decode.exprField_null hargument]
    rfl
  | .brk ⟨fields, hd, htype, hargument, _⟩ hw, place => by
    subst hd
    have h := Decode.exprField_node hargument (hw.node (.field "argument" :: place))
    simp only [Decode.node, htype, NodeType.ofText?_text, h]
    rfl
  | .brkNothing ⟨fields, hd, htype, hargument, _⟩, place => by
    subst hd
    simp only [Decode.node, htype, NodeType.ofText?_text, Decode.exprField_null hargument]
    rfl

theorem Expr.WrittenAll.exprs {es : List Expr} {ds : List Document} : Expr.WrittenAll es ds →
    ∀ (place : Place) (i : Nat), Decode.exprs place i ds = .ok es
  | .nil, _, _ => by simp only [Decode.exprs]
  | .cons hw hws, place, i => by
    simp only [Decode.exprs, hw.node, hws.exprs, Decode.asExpr]
    rfl

theorem Expr.WrittenEntries.entries {es : List Entry} {ds : List Document} :
    Expr.WrittenEntries es ds →
    ∀ (place : Place) (i : Nat), Decode.entries place i ds = .ok es
  | .nil, _, _ => by simp only [Decode.entries]
  | .cons ⟨fields, hd, hkey, hvalue, _⟩ hw hws, place, i => by
    subst hd
    have h := Decode.exprField_node hvalue (hw.node (.field "value" :: .index i :: place))
    simp only [Decode.entries, Decode.stringField_found hkey, h, hws.entries]
    rfl

end

theorem Item.Written.node {i : Item} {d : Document} (h : i.Written d) (place : Place) :
    Decode.node place d = .ok (.item i) := by
  cases h with
  | define hnode hps hw =>
    obtain ⟨fields, rfl, htype, hname, hlist, hbody, -⟩ := hnode
    have hb := Decode.exprField_node hbody (hw.node (.field "body" :: place))
    simp only [Decode.node, htype, NodeType.ofText?_text, Decode.stringField_found hname,
      Decode.nameList_lists hlist hps, hb]
    rfl
  | bodyless hnode hps =>
    obtain ⟨fields, rfl, htype, hname, hlist, hbody, -⟩ := hnode
    simp only [Decode.node, htype, NodeType.ofText?_text, Decode.stringField_found hname,
      Decode.nameList_lists hlist hps, Decode.exprField_null hbody]
    rfl
  | exports hnode hns =>
    obtain ⟨fields, rfl, htype, hlist, -⟩ := hnode
    simp only [Decode.node, htype, NodeType.ofText?_text, Decode.nameList_lists hlist hns]
    rfl
  | imports hnode hns =>
    obtain ⟨fields, rfl, htype, hmodule, hlist, -⟩ := hnode
    simp only [Decode.node, htype, NodeType.ofText?_text, Decode.stringField_found hmodule,
      Decode.nameList_lists hlist hns]
    rfl

theorem Decode.itemList_written {items : List Item} {ds : List Document}
    (h : List.Forall₂ Item.Written items ds) (place : Place) :
    ∀ i, itemList place i ds = .ok items := by
  induction h with
  | nil =>
    intro i
    simp only [itemList]
  | cons hw _ ih =>
    intro i
    simp only [itemList, hw.node, ih, asItem]
    rfl

theorem Module.Written.toModule {m : Module} {d : Document} (h : m.Written d) :
    d.toModule = .ok m := by
  obtain ⟨⟨fields, rfl, htype, hlist, -⟩, hitems⟩ := h
  have h := Decode.itemList_written hitems [.field "items"] 0
  simp only [Document.toModule, Decode.node, htype, NodeType.ofText?_text,
    Decode.itemsField_list hlist, h]
  rfl

theorem Expr.Written.toExpr {e : Expr} {d : Document} (h : e.Written d) : d.toExpr = .ok e := by
  have hnode := h.node []
  cases d with
  | object fields => simp only [Document.toExpr, Decode.expr, hnode, Decode.asExpr]
  | _ => simp [Decode.node, Decode.fault] at hnode

/-! ## There and back -/

theorem Format.document_of_parse {cs : List Char} {d : Document} (hd : Json.parse cs = .ok d) :
    json.document (Text.bytes (String.ofList cs)) = .ok d := by
  unfold document
  rw [Text.decodeLossy_bytes, String.toList_ofList, hd]
  rfl

theorem Format.readModule_of_document {f : Format} {bytes : List UInt8} {d : Document} {m : Module}
    (hd : f.document bytes = .ok d) (h : d.toModule = .ok m) : f.readModule bytes = .ok m := by
  unfold readModule
  rw [hd]
  change d.toModule.mapError _ = _
  rw [h]
  rfl

theorem Format.readExpr_of_document {f : Format} {bytes : List UInt8} {d : Document} {e : Expr}
    (hd : f.document bytes = .ok d) (h : d.toExpr = .ok e) : f.readExpr bytes = .ok e := by
  unfold readExpr
  rw [hd]
  change d.toExpr.mapError _ = _
  rw [h]
  rfl

/-- A tree over finite numbers whose literals are read back has a spelling, which the encoder
writes, and is what is read from any text that holds a spelling of it. -/
theorem complete_trees_read_back (numbers : Single → Prop)
    (hfinite : ∀ x, numbers x → x.isFinite)
    (hliteral : ∀ x, numbers x → x.ReadFrom (Layout.single.text Spread.wide x.datum)) :
    (∀ m : Module, m.Complete numbers →
      (∃ d, Encode.module m = some d ∧ m.Written d) ∧
        ∀ d bytes, m.Written d → Format.json.document bytes = .ok d →
          Format.json.readModule bytes = .ok m) ∧
    ∀ e : Expr, e.Complete numbers →
      (∃ d, Encode.expr e = some d ∧ e.Written d) ∧
        ∀ d bytes, e.Written d → Format.json.document bytes = .ok d →
          Format.json.readExpr bytes = .ok e := by
  have hn : Legible numbers := by
    intro x hx
    exact ⟨_, if_pos (hfinite x hx), hliteral x hx⟩
  refine ⟨fun m hm => ⟨m.encoded hn hm, ?_⟩, fun e he => ⟨e.encoded hn he, ?_⟩⟩
  · intro d bytes hw hd
    exact Format.readModule_of_document hd hw.toModule
  · intro d bytes hw hd
    exact Format.readExpr_of_document hd hw.toExpr

/-- A number that can be written, a list of names that is null and a break without an argument. -/
theorem complete_trees_read_back_tenth :
    let tenth : Single := ⟨0x3DCCCCCD⟩
    let number : Expr := .brk (.float tenth)
    let m : Module := ⟨[.exports []]⟩
    let e : Expr := .loop (.brk .absent)
    tenth.isFinite ∧ tenth.ReadFrom (Layout.single.text Spread.wide tenth.datum) ∧
      number.Complete (· = tenth) ∧ m.Complete (· = tenth) ∧ e.Complete (· = tenth) ∧
      (∃ d, Encode.expr number = some d ∧ number.Written d) ∧
      Format.json.readModule (Text.bytes
        "\x7b\"type\":\"Module\",\"items\":[\x7b\"type\":\"Export\",\"names\":null\x7d]\x7d") = .ok m ∧
      Format.json.readExpr (Text.bytes
        "\x7b\"type\":\"Loop\",\"body\":\x7b\"type\":\"Break\",\"argument\":null\x7d\x7d") = .ok e := by
  intro tenth number m e
  let dm : Document := .object [
    ("items", .list [.object [("names", .null), ("type", .string "Export")]]),
    ("type", .string "Module")]
  let de : Document := .object [
    ("body", .object [("argument", .null), ("type", .string "Break")]), ("type", .string "Loop")]
  have hfinite : tenth.isFinite = true := by decide +kernel
  have hread : tenth.ReadFrom (Layout.single.text Spread.wide tenth.datum) := by
    unfold Single.ReadFrom
    decide +kernel
  have hn : number.Complete (· = tenth) := .inr rfl
  have hm : m.Complete (· = tenth) := List.forall_mem_singleton.2 trivial
  have he : e.Complete (· = tenth) := .inl rfl
  have hmw : m.Written dm :=
    .items ⟨_, rfl, rfl, rfl, trivial⟩ (.cons (.exports ⟨_, rfl, rfl, rfl, trivial⟩ .null) .nil)
  have hew : e.Written de :=
    .loop ⟨_, rfl, rfl, rfl, trivial⟩ (.brkNothing ⟨_, rfl, rfl, rfl, trivial⟩)
  obtain ⟨hmodules, hexprs⟩ := complete_trees_read_back (· = tenth)
    (fun x hx => hx ▸ hfinite) (fun x hx => hx ▸ hread)
  refine ⟨hfinite, hread, hn, hm, he, (hexprs number hn).1, (hmodules m hm).2 dm _ hmw ?_,
    (hexprs e he).2 de _ hew ?_⟩
  · exact Format.document_of_parse rfl
  · exact Format.document_of_parse rfl

/-- The literal of this number would be read as the number itself, if it were not rounded to a double
first: that lies halfway between the number and its neighbour, which is what comes back. -/
theorem neighbour_read_back :
    let number : Single := ⟨0x15AE43FD⟩
    let text := Text.bytes "\x7b\"type\":\"FloatLiteral\",\"value\":7.038531e-26\x7d"
    (Expr.float number).Complete (fun x => x.isFinite) ∧
      (Decimal.parse? "7.038531e-26".toList).map Decimal.toSingle = some number ∧
      (∃ d, Encode.expr (.float number) = some d ∧ Format.json.document text = .ok d) ∧
      Format.json.readExpr text = .ok (.float ⟨0x15AE43FE⟩) := by
  intro number text
  let d : Document := .object [("type", .string "FloatLiteral"),
    ("value", .number (.literal "7.038531e-26"))]
  have hfinite : number.isFinite = true := by decide +kernel
  have hliteral : Layout.single.text Spread.wide number.datum = "7.038531e-26" := by decide +kernel
  have hvalue : Encode.float? number = some (.number (.literal "7.038531e-26")) := by
    rw [Encode.float?, if_pos hfinite, hliteral]
  have hencode : Encode.expr (.float number) = some d := by
    simp only [Encode.expr, hvalue]
    rfl
  have hd : Format.json.document text = .ok d := Format.document_of_parse (by with_unfolding_all rfl)
  have hread : Single.ReadFrom ⟨0x15AE43FE⟩ "7.038531e-26" := by
    unfold Single.ReadFrom
    decide +kernel
  have hw : (Expr.float ⟨0x15AE43FE⟩).Written d := .float ⟨_, rfl, rfl, rfl, trivial⟩ hread
  exact ⟨hfinite, by decide +kernel, ⟨d, hencode, hd⟩, Format.readExpr_of_document hd hw.toExpr⟩

end Arbor
