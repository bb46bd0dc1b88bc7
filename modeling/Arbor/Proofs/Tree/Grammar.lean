import Arbor.Proofs.Tree.RoundTrip
import Mathlib.Algebra.Order.Field.Power
import Mathlib.Data.Rat.Cast.Order
import Mathlib.Tactic.Positivity

/-!
The grammar of trees in documents.

`Document.Denotes` derives the expression a document stands for, with one rule for each node type;
`DenotesItem` and `DenotesModule` do so for items and modules. A field is found by its name, fields
without a rule do not matter, and an optional field may be missing or null. Reading follows the
grammar in both directions: what is read has a derivation (`Decode.node_sound`), and what is derived
is read, whatever the place (`Document.Denotes.node`).
-/

set_option autoImplicit false

namespace Arbor

/-! ## Numbers -/

/-- The numeral is written as an integer, or is one exactly. -/
inductive Numeral.IsInteger : Numeral → Int → Prop where
  | digits {s : String} {ds : List Char} : s.toList = ds → ds ≠ [] → (∀ c ∈ ds, c.isDigit) →
      IsInteger (.literal s) (Nat.ofDigitChars 10 ds 0)
  | minus {s : String} {ds : List Char} : s.toList = '-' :: ds → ds ≠ [] → (∀ c ∈ ds, c.isDigit) →
      IsInteger (.literal s) (-(Nat.ofDigitChars 10 ds 0 : Int))
  | integer (n : Int) : IsInteger (.integer n) n
  | double {x : Double} {negative : Bool} {m : Nat} {place n : Int} :
      x.datum = .finite negative m place →
      (n : ℚ) = (if negative then -1 else 1) * (m * 2 ^ place) → IsInteger (.double x) n

/-- The single-layout number a numeral stands for; a literal has to be in the range of doubles. -/
inductive Numeral.RoundsTo : Numeral → Single → Prop where
  | literal {s : String} {d : Decimal} {x : Double} : Decimal.parse? s.toList = some d →
      d.toDouble? = some x → RoundsTo (.literal s) x.toSingle
  | integer (n : Int) : RoundsTo (.integer n) (Single.ofInt n)
  | double (x : Double) : RoundsTo (.double x) x.toSingle

/-! ## Rules -/

namespace Document

/-- The field is missing or null. -/
def Lacks (fields : Table Document) (key : String) : Prop :=
  Table.find? fields key = none ∨ Table.find? fields key = some .null

/-- The members of a list that may be missing or null. -/
inductive Members (fields : Table Document) (key : String) : List Document → Prop where
  | lacking : Lacks fields key → Members fields key []
  | list {ds : List Document} : Table.find? fields key = some (.list ds) → Members fields key ds

/-- The object names that node type. -/
def HasType (fields : Table Document) (type : NodeType) : Prop :=
  Table.find? fields "type" = some (.string type.text)

theorem HasType.eq {fields : Table Document} {type : NodeType} (h : HasType fields type) :
    Table.find? fields "type" = some (.string type.text) := h

/-- A list of names that may be missing or null. -/
def Names (fields : Table Document) (key : String) (names : List String) : Prop :=
  Members fields key (names.map .string)

mutual

/-- The document stands for the expression. -/
inductive Denotes : Document → Expr → Prop where
  | block {fields : Table Document} {ds : List Document} {es : List Expr} :
      HasType fields .block → Members fields "expressions" ds → DenotesAll ds es →
      Denotes (.object fields) (.block es)
  | assign {fields : Table Document} {name : String} {d : Document} {e : Expr} :
      HasType fields .assignment → Table.find? fields "name" = some (.string name) →
      Table.find? fields "value" = some d → Denotes d e → Denotes (.object fields) (.assign name e)
  | var {fields : Table Document} {name : String} :
      HasType fields .invoke → Table.find? fields "name" = some (.string name) →
      Denotes (.object fields) (.var name)
  | string {fields : Table Document} {s : String} :
      HasType fields .stringLiteral → Table.find? fields "value" = some (.string s) →
      Denotes (.object fields) (.string s)
  | integer {fields : Table Document} {number : Numeral} {n : Int32} :
      HasType fields .integerLiteral → Table.find? fields "value" = some (.number number) →
      number.IsInteger n.toInt → Denotes (.object fields) (.integer n)
  | float {fields : Table Document} {number : Numeral} {x : Single} :
      HasType fields .floatLiteral → Table.find? fields "value" = some (.number number) →
      number.RoundsTo x → Denotes (.object fields) (.float x)
  | bool {fields : Table Document} {b : Bool} :
      HasType fields .booleanLiteral → Table.find? fields "value" = some (.bool b) →
      Denotes (.object fields) (.bool b)
  | list {fields : Table Document} {ds : List Document} {es : List Expr} :
      HasType fields .listLiteral → Members fields "elements" ds → DenotesAll ds es →
      Denotes (.object fields) (.list es)
  | map {fields : Table Document} {ds : List Document} {es : List Entry} :
      HasType fields .mapLiteral → Members fields "entries" ds → DenotesEntries ds es →
      Denotes (.object fields) (.map es)
  | call {fields inner : Table Document} {module item : String} {ds : List Document}
      {es : List Expr} :
      HasType fields .functionCall → Table.find? fields "path" = some (.object inner) →
      Table.find? inner "module" = some (.string module) →
      Table.find? inner "item" = some (.string item) →
      Members fields "arguments" ds → DenotesAll ds es →
      Denotes (.object fields) (.call ⟨module, item⟩ es)
  | cond {fields : Table Document} {dt da db : Document} {test a b : Expr} :
      HasType fields .condition → Table.find? fields "test" = some dt → Denotes dt test →
      Table.find? fields "whenTrue" = some da → Denotes da a →
      Table.find? fields "whenFalse" = some db → Denotes db b →
      Denotes (.object fields) (.cond test a b)
  | loop {fields : Table Document} {d : Document} {e : Expr} :
      HasType fields .loop → Table.find? fields "body" = some d → Denotes d e →
      Denotes (.object fields) (.loop e)
  | ret {fields : Table Document} {d : Document} {e : Expr} :
      HasType fields .ret → Table.find? fields "argument" = some d → Denotes d e →
      Denotes (.object fields) (.ret e)
  | retNothing {fields : Table Document} :
      HasType fields .ret → Lacks fields "argument" → Denotes (.object fields) (.ret .absent)
  | brk {fields : Table Document} {d : Document} {e : Expr} :
      HasType fields .brk → Table.find? fields "argument" = some d → Denotes d e →
      Denotes (.object fields) (.brk e)
  | brkNothing {fields : Table Document} :
      HasType fields .brk → Lacks fields "argument" → Denotes (.object fields) (.brk .absent)

inductive DenotesAll : List Document → List Expr → Prop where
  | nil : DenotesAll [] []
  | cons {d : Document} {ds : List Document} {e : Expr} {es : List Expr} :
      Denotes d e → DenotesAll ds es → DenotesAll (d :: ds) (e :: es)

/-- Entries are objects with a key and a value; they need no type. -/
inductive DenotesEntries : List Document → List Entry → Prop where
  | nil : DenotesEntries [] []
  | cons {fields : Table Document} {key : String} {d : Document} {e : Expr} {ds : List Document}
      {es : List Entry} :
      Table.find? fields "key" = some (.string key) → Table.find? fields "value" = some d →
      Denotes d e → DenotesEntries ds es →
      DenotesEntries (.object fields :: ds) (.field key e :: es)

end

/-- The expressions a function body consists of: those of a block, or the one it is. -/
inductive IsBody : Expr → List Expr → Prop where
  | block (es : List Expr) : IsBody (.block es) es
  | single {e : Expr} : (∀ es, e ≠ .block es) → IsBody e [e]

/-- The document stands for the module item. -/
inductive DenotesItem : Document → Item → Prop where
  | exports {fields : Table Document} {names : List String} :
      HasType fields .exportItem → Names fields "names" names →
      DenotesItem (.object fields) (.exports names)
  | imports {fields : Table Document} {module : String} {names : List String} :
      HasType fields .importItem → Table.find? fields "module" = some (.string module) →
      Names fields "items" names → DenotesItem (.object fields) (.imports module names)
  | define {fields : Table Document} {name : String} {parameters : List String} {d : Document}
      {e : Expr} {body : List Expr} :
      HasType fields .functionDefinition → Table.find? fields "name" = some (.string name) →
      Names fields "parameters" parameters → Table.find? fields "body" = some d → Denotes d e →
      IsBody e body → DenotesItem (.object fields) (.define ⟨name, parameters, some body⟩)
  | bodyless {fields : Table Document} {name : String} {parameters : List String} :
      HasType fields .functionDefinition → Table.find? fields "name" = some (.string name) →
      Names fields "parameters" parameters → Lacks fields "body" →
      DenotesItem (.object fields) (.define ⟨name, parameters, none⟩)

/-- The document stands for the module; its items have to be a list. -/
inductive DenotesModule : Document → Module → Prop where
  | items {fields : Table Document} {ds : List Document} {items : List Item} :
      HasType fields .module → Table.find? fields "items" = some (.list ds) →
      List.Forall₂ DenotesItem ds items → DenotesModule (.object fields) ⟨items⟩

/-- The document stands for the node, of whatever sort it is. -/
def DenotesNode (d : Document) : Node → Prop
  | .expr e => d.Denotes e
  | .item i => d.DenotesItem i
  | .module m => d.DenotesModule m

end Document

/-! ## What the readers of fields accept -/

namespace Decode

variable {place : Place} {fields : Table Document} {key : String}

theorem bind_eq_ok {α β : Type} {x : Result α} {f : α → Result β} {b : β} :
    (x >>= f) = .ok b ↔ ∃ a, x = .ok a ∧ f a = .ok b := by
  cases x <;> simp [bind, Except.bind]

theorem pure_eq_ok {α : Type} {a b : α} : (pure a : Result α) = .ok b ↔ a = b := by
  simp [pure, Except.pure]

theorem fault_ne_ok {α : Type} {flaw : Flaw} {a : α} : ¬ fault place flaw = .ok a := nofun

theorem digitsValue_eq_ofDigitChars (ds : List Char) :
    digitsValue 0 ds = Nat.ofDigitChars 10 ds 0 := by
  simp only [digitsValue, Nat.ofDigitChars, Nat.mul_comm]
  rfl

theorem integerLiteral?_eq_some_iff {s : String} {v : Int} :
    integerLiteral? s = some v ↔ (Numeral.literal s).IsInteger v := by
  constructor
  · intro h
    unfold integerLiteral? at h
    split at h
    next negative ds heq =>
      split at h
      · cases h
      next hds =>
        have hne : ds ≠ [] := fun h => hds (.inl (by simp [h]))
        have hall : ∀ c ∈ ds, c.isDigit := by
          have : ds.all Char.isDigit = true := by_contra fun h => hds (.inr h)
          exact List.all_eq_true.1 this
        rw [digitsValue_eq_ofDigitChars] at h
        split at heq
        next hs =>
          cases heq
          cases h
          exact .minus hs hne hall
        next =>
          cases heq
          cases h
          exact .digits rfl hne hall
  · intro h
    unfold integerLiteral?
    cases h with
    | digits hs hne hall =>
      rename_i ds
      cases hds : ds with
      | nil => exact absurd hds hne
      | cons c cs =>
        have hc : c ≠ '-' := by
          rintro rfl
          have := hall '-' (hds ▸ List.mem_cons_self)
          simp at this
        have hs := hs.trans hds
        rw [hds] at hall
        have hall : (c :: cs).all Char.isDigit = true := List.all_eq_true.2 hall
        split
        next heq =>
          split at heq
          next hcons => exact absurd (List.cons.inj (hs.symm.trans hcons)).1 hc
          next =>
            cases heq
            rw [hs]
            simp [hall, digitsValue_eq_ofDigitChars]
    | minus hs hne hall =>
      simp [hs, hne, List.all_eq_true.2 hall, digitsValue_eq_ofDigitChars]

theorem inRange32_toInt (n : Int32) : inRange32 n.toInt = true := by
  have hlow := n.le_toInt
  have hhigh := n.toInt_lt
  simp only [inRange32, Bool.and_eq_true, decide_eq_true_eq]
  omega

theorem inRange64_of_inRange32 {v : Int} (h : inRange32 v = true) : inRange64 v = true := by
  simp only [inRange32, inRange64, Bool.and_eq_true, decide_eq_true_eq] at h ⊢
  omega

theorem checkRange_eq_ok_iff {v : Int} {n : Int32} :
    checkRange place v = .ok n ↔ n.toInt = v := by
  unfold checkRange
  split
  next h =>
    simp only [inRange32, Bool.and_eq_true, decide_eq_true_eq] at h
    have hv : (Int32.ofInt v).toInt = v := Int32.toInt_ofInt_of_le (by omega) (by omega)
    constructor
    · rintro ⟨⟩
      exact hv
    · intro hn
      rw [← Int32.toInt_inj.1 (hn.trans hv.symm)]
  next h =>
    refine ⟨fun h' => absurd h' fault_ne_ok, ?_⟩
    rintro rfl
    exact absurd (inRange32_toInt n) h

/-- The size of a finite number, if it is whole. -/
theorem whole_size {m : Nat} {place : Int} {size : Nat} :
    (if 0 ≤ place then some (m * Nat.pow 2 place.toNat)
      else
        let unit := Nat.pow 2 (-place).toNat
        if m % unit = 0 then some (m / unit) else none) = some size ↔
      (size : ℚ) = m * 2 ^ place := by
  simp only [Nat.pow_eq]
  by_cases hp : 0 ≤ place
  · obtain ⟨k, rfl⟩ := Int.eq_ofNat_of_zero_le hp
    rw [if_pos hp, Option.some.injEq, Int.toNat_natCast, zpow_natCast, eq_comm,
      ← Nat.cast_inj (R := ℚ)]
    push_cast
    rfl
  · obtain ⟨k, rfl⟩ : ∃ k : Nat, place = -k := ⟨(-place).toNat, by omega⟩
    have hpos : 0 < 2 ^ k := by positivity
    rw [if_neg hp, neg_neg, Int.toNat_natCast, zpow_neg, zpow_natCast,
      eq_mul_inv_iff_mul_eq₀ (by positivity)]
    have hcast : (size : ℚ) * 2 ^ k = m ↔ size * 2 ^ k = m := by exact_mod_cast Iff.rfl
    rw [hcast]
    constructor
    · intro h
      split at h
      next hm =>
        cases h
        exact Nat.div_mul_cancel (Nat.dvd_of_mod_eq_zero hm)
      next => cases h
    · rintro rfl
      rw [if_pos (Nat.mul_mod_left _ _), Nat.mul_div_cancel _ hpos]

theorem wholeDouble?_eq_some_iff {x : Double} {v : Int} (hv : inRange32 v = true) :
    wholeDouble? x = some v ↔ (Numeral.double x).IsInteger v := by
  have hrange := inRange64_of_inRange32 hv
  have hleast : v ≠ -9223372036854775808 := by
    rintro rfl
    revert hv
    decide
  have hfinite : (Numeral.double x).IsInteger v ↔ ∃ negative m place,
      x.datum = .finite negative m place ∧
        (v : ℚ) = (if negative then -1 else 1) * (m * 2 ^ place) :=
    ⟨fun | .double hx hn => ⟨_, _, _, hx, hn⟩, fun ⟨_, _, _, hx, hn⟩ => .double hx hn⟩
  rw [hfinite]
  unfold wholeDouble?
  cases hx : x.datum with
  | nan => simp
  | infinite negative => simpa using hleast.symm
  | finite negative m place =>
    simp only [Option.map_eq_some_iff, Option.bind_eq_bind, Option.bind_eq_some_iff, whole_size,
      Option.pure_def, Option.some.injEq, Datum.finite.injEq]
    constructor
    · rintro ⟨-, ⟨size, hsize, rfl⟩, h⟩
      refine ⟨negative, m, place, ⟨rfl, rfl, rfl⟩, ?_⟩
      rw [← hsize]
      by_cases hn : inRange64 (if negative then -(size : Int) else size) = true
      · rw [if_pos hn] at h
        rw [← h]
        cases negative <;> simp
      · rw [if_neg hn] at h
        exact absurd h.symm hleast
    · rintro ⟨negative', m', place', ⟨rfl, rfl, rfl⟩, h⟩
      have hsize : (v.natAbs : ℚ) = m * 2 ^ place := by
        have hpos : (0 : ℚ) ≤ m * 2 ^ place := by positivity
        rw [Nat.cast_natAbs, Int.cast_abs, h]
        cases negative <;> simp [abs_of_nonneg hpos]
      refine ⟨_, ⟨v.natAbs, hsize, rfl⟩, ?_⟩
      have hsign : (if negative then -(v.natAbs : Int) else v.natAbs) = v := by
        rw [← Int.cast_inj (α := ℚ), h, ← hsize]
        cases negative <;> simp
      rw [hsign, if_pos hrange]

theorem integer_eq_ok_iff {d : Option Document} {n : Int32} :
    integer place d = .ok n ↔ ∃ number, d = some (.number number) ∧ number.IsInteger n.toInt := by
  constructor
  · intro h
    unfold integer at h
    split at h
    next s =>
      split at h
      next v hv =>
        split at h
        · rw [checkRange_eq_ok_iff] at h
          exact ⟨_, rfl, integerLiteral?_eq_some_iff.1 (h ▸ hv)⟩
        · cases h
      next => cases h
    next v =>
      rw [checkRange_eq_ok_iff] at h
      exact ⟨_, rfl, h ▸ .integer v⟩
    next x =>
      split at h
      next v hv =>
        rw [checkRange_eq_ok_iff] at h
        subst h
        exact ⟨_, rfl, (wholeDouble?_eq_some_iff (inRange32_toInt n)).1 hv⟩
      next => cases h
    next => cases h
  · rintro ⟨number, rfl, h⟩
    cases number with
    | literal s =>
      rw [← integerLiteral?_eq_some_iff] at h
      simp only [integer, h, inRange64_of_inRange32 (inRange32_toInt n), if_true,
        checkRange_eq_ok_iff]
    | integer v =>
      cases h
      simp only [integer, checkRange_eq_ok_iff]
    | double x =>
      rw [← wholeDouble?_eq_some_iff (inRange32_toInt n)] at h
      simp only [integer, h, checkRange_eq_ok_iff]

theorem float_eq_ok_iff {d : Option Document} {x : Single} :
    float place d = .ok x ↔ ∃ number, d = some (.number number) ∧ number.RoundsTo x := by
  constructor
  · intro h
    unfold float at h
    split at h
    next s =>
      split at h
      next y hy =>
        obtain ⟨d, hd, hy⟩ := Option.bind_eq_some_iff.1 hy
        cases h
        exact ⟨_, rfl, .literal hd hy⟩
      next => cases h
    next n =>
      cases h
      exact ⟨_, rfl, .integer n⟩
    next y =>
      cases h
      exact ⟨_, rfl, .double y⟩
    next => cases h
  · rintro ⟨number, rfl, h⟩
    cases h with
    | literal hd hx => simp only [float, hd, Option.bind_some, hx]
    | integer n => rfl
    | double y => rfl

theorem stringField_eq_ok_iff {s : String} :
    stringField fields key place = .ok s ↔ Table.find? fields key = some (.string s) := by
  unfold stringField
  split
  next t ht => simp [ht]
  next hne =>
    refine ⟨fun h => absurd h fault_ne_ok, fun h => absurd h (hne s)⟩

theorem names_eq_ok_iff {ds : List Document} {ns : List String} (i : Nat) :
    names place i ds = .ok ns ↔ ds = ns.map .string := by
  induction ds generalizing i ns with
  | nil => cases ns <;> simp [names]
  | cons d ds ih =>
    cases d with
    | string s =>
      simp only [names, bind_eq_ok, pure_eq_ok, ih]
      constructor
      · rintro ⟨tail, rfl, rfl⟩
        rfl
      · intro h
        cases ns with
        | nil => cases h
        | cons n ns =>
          obtain ⟨hs, hds⟩ := List.cons.inj h
          cases hs
          exact ⟨ns, hds, rfl⟩
    | _ => cases ns <;> simp [names, fault]

theorem nameList_eq_ok_iff {ns : List String} :
    nameList fields key place = .ok ns ↔ Document.Names fields key ns := by
  unfold nameList
  constructor
  · intro h
    split at h
    next hnone =>
      cases h
      exact .lacking (.inl hnone)
    next hnull =>
      cases h
      exact .lacking (.inr hnull)
    next ds hds =>
      rw [names_eq_ok_iff] at h
      exact .list (h ▸ hds)
    next => cases h
  · intro h
    unfold Document.Names at h
    generalize hds : ns.map Document.string = ds at h
    cases h with
    | lacking h =>
      obtain rfl := List.map_eq_nil_iff.1 hds
      obtain h | h := h <;> rw [h]
    | list h =>
      rw [h]
      exact (names_eq_ok_iff 0).2 hds.symm

theorem path_eq_ok_iff {p : Path} :
    path fields place = .ok p ↔ ∃ inner, Table.find? fields "path" = some (.object inner) ∧
      Table.find? inner "module" = some (.string p.module) ∧
      Table.find? inner "item" = some (.string p.item) := by
  unfold path
  split
  next inner hinner =>
    simp only [bind_eq_ok, pure_eq_ok, stringField_eq_ok_iff, hinner, Option.some.injEq,
      Document.object.injEq, exists_eq_left']
    constructor
    · rintro ⟨module, hmodule, item, hitem, rfl⟩
      exact ⟨hmodule, hitem⟩
    · rintro ⟨hmodule, hitem⟩
      exact ⟨_, hmodule, _, hitem, rfl⟩
  next hne =>
    refine ⟨fun h => absurd h fault_ne_ok, ?_⟩
    rintro ⟨inner, hinner, -⟩
    exact absurd hinner (hne inner)

theorem eq_nil_of_find? {α : Type} {read : Table Document → α}
    (hread : ∀ k d rest, read ((k, d) :: rest) = if k = key then read [(key, d)] else read rest)
    (h : Table.find? fields key = none) : read fields = read [] := by
  induction fields with
  | nil => rfl
  | cons p rest ih =>
    obtain ⟨k, d⟩ := p
    rw [Table.find?] at h
    rw [hread]
    split at h
    · cases h
    next hk => rw [if_neg hk, ih h]

theorem exprField_lacking (h : Document.Lacks fields key) :
    exprField key place fields = .ok none := by
  obtain h | h := h
  · rw [eq_nil_of_find? (exprField_cons key place) h]
    simp [exprField]
  · exact exprField_null h

theorem asExpr_eq_ok_iff {r : Result Node} {e : Expr} :
    asExpr place r = .ok e ↔ r = .ok (.expr e) := by
  unfold asExpr
  split <;> simp_all [fault]

theorem asItem_eq_ok_iff {r : Result Node} {i : Item} :
    asItem place r = .ok i ↔ r = .ok (.item i) := by
  unfold asItem
  split <;> simp_all [fault]

theorem exprField_found {d : Document} (h : Table.find? fields key = some d) (hd : d ≠ .null) :
    exprField key place fields = (do
      let e ← asExpr (.field key :: place) (node (.field key :: place) d)
      return some e) := by
  rw [eq_of_find? (exprField_cons key place) h]
  cases d with
  | null => exact absurd rfl hd
  | _ => simp only [exprField, if_true]

theorem exprField_eq_ok_iff {r : Option Expr} :
    exprField key place fields = .ok r ↔ (Document.Lacks fields key ∧ r = none) ∨
      ∃ d e, Table.find? fields key = some d ∧ node (.field key :: place) d = .ok (.expr e) ∧
        r = some e := by
  constructor
  · intro h
    by_cases hl : Document.Lacks fields key
    · rw [exprField_lacking hl] at h
      cases h
      exact .inl ⟨hl, rfl⟩
    · obtain ⟨d, hd⟩ : ∃ d, Table.find? fields key = some d :=
        Option.ne_none_iff_exists'.1 fun h => hl (.inl h)
      have hne : d ≠ .null := by
        rintro rfl
        exact hl (.inr hd)
      simp only [exprField_found hd hne, bind_eq_ok, pure_eq_ok, asExpr_eq_ok_iff] at h
      obtain ⟨e, he, rfl⟩ := h
      exact .inr ⟨d, e, hd, he, rfl⟩
  · rintro (⟨hl, rfl⟩ | ⟨d, e, hd, he, rfl⟩)
    · exact exprField_lacking hl
    · exact exprField_node hd he

theorem required_eq_ok_iff {e : Expr} :
    required key place (exprField key place fields) = .ok e ↔
      ∃ d, Table.find? fields key = some d ∧ node (.field key :: place) d = .ok (.expr e) := by
  have hr : required key place (exprField key place fields) = .ok e ↔
      exprField key place fields = .ok (some e) := by
    unfold required
    split <;> simp_all [fault]
  rw [hr, exprField_eq_ok_iff]
  simp

/-- How a list is read that may be missing or null, whatever its members are. -/
theorem listField_eq_ok_iff {α : Type} {read : Table Document → Result (List α)}
    {inner : List Document → Result (List α)}
    (hread : ∀ k d rest, read ((k, d) :: rest) = if k = key then read [(key, d)] else read rest)
    (hnil : read [] = inner []) (hnull : read [(key, .null)] = inner [])
    (hlist : ∀ ds, read [(key, .list ds)] = inner ds)
    (hother : ∀ d, d ≠ .null → (∀ ds, d ≠ .list ds) → ∀ xs, read [(key, d)] ≠ .ok xs)
    {xs : List α} :
    read fields = .ok xs ↔ ∃ ds, Document.Members fields key ds ∧ inner ds = .ok xs := by
  constructor
  · intro h
    cases hd : Table.find? fields key with
    | none =>
      rw [eq_nil_of_find? hread hd, hnil] at h
      exact ⟨[], .lacking (.inl hd), h⟩
    | some d =>
      rw [eq_of_find? hread hd] at h
      cases d with
      | null => exact ⟨[], .lacking (.inr hd), hnull ▸ h⟩
      | list ds => exact ⟨ds, .list hd, hlist ds ▸ h⟩
      | _ =>
        refine absurd h (hother _ ?_ ?_ xs)
        · nofun
        · nofun
  · rintro ⟨ds, hds, h⟩
    cases hds with
    | lacking hl =>
      obtain hd | hd := hl
      · rw [eq_nil_of_find? hread hd, hnil, h]
      · rw [eq_of_find? hread hd, hnull, h]
    | list hd => rw [eq_of_find? hread hd, hlist, h]

theorem exprsField_eq_ok_iff {es : List Expr} :
    exprsField key place fields = .ok es ↔
      ∃ ds, Document.Members fields key ds ∧ exprs (.field key :: place) 0 ds = .ok es := by
  refine listField_eq_ok_iff (exprsField_cons key place) ?_ ?_ ?_ ?_
  · simp [exprsField, exprs]
  · simp [exprsField, exprs]
  · simp [exprsField]
  · intro d hnull hlist es
    cases d with
    | null => exact absurd rfl hnull
    | list ds => exact absurd rfl (hlist ds)
    | _ => simp [exprsField, fault]

theorem entriesField_eq_ok_iff {es : List Entry} :
    entriesField place fields = .ok es ↔
      ∃ ds, Document.Members fields "entries" ds ∧
        entries (.field "entries" :: place) 0 ds = .ok es := by
  refine listField_eq_ok_iff (entriesField_cons place) ?_ ?_ ?_ ?_
  · simp [entriesField, entries]
  · simp [entriesField, entries]
  · simp [entriesField]
  · intro d hnull hlist es
    cases d with
    | null => exact absurd rfl hnull
    | list ds => exact absurd rfl (hlist ds)
    | _ => simp [entriesField, fault]

theorem itemsField_eq_ok_iff {items : List Item} :
    itemsField place fields = .ok items ↔
      ∃ ds, Table.find? fields "items" = some (.list ds) ∧
        itemList (.field "items" :: place) 0 ds = .ok items := by
  constructor
  · intro h
    cases hd : Table.find? fields "items" with
    | none =>
      rw [eq_nil_of_find? (itemsField_cons place) hd] at h
      simp [itemsField, fault] at h
    | some d =>
      rw [eq_of_find? (itemsField_cons place) hd] at h
      cases d with
      | list ds => exact ⟨ds, rfl, by simpa [itemsField] using h⟩
      | _ => simp [itemsField, fault] at h
  · rintro ⟨ds, hds, h⟩
    rw [itemsField_list hds, h]

theorem isBody_bodyOf (e : Expr) : Document.IsBody e (bodyOf e) := by
  cases e with
  | block es => exact .block es
  | _ => exact .single nofun

theorem bodyOf_of_isBody {e : Expr} {body : List Expr} (h : Document.IsBody e body) :
    bodyOf e = body := by
  cases h with
  | block => rfl
  | single hne =>
    cases e with
    | block es => exact absurd rfl (hne es)
    | _ => rfl

theorem text_of_ofText? {s : String} {t : NodeType} (h : NodeType.ofText? s = some t) :
    t.text = s := by
  have := List.find?_some h
  simpa using this

end Decode

/-! ## Documents get smaller -/

theorem Table.sizeOf_lt_of_find? {fields : Table Document} {key : String} {d : Document}
    (h : find? fields key = some d) : sizeOf d < sizeOf (Document.object fields) := by
  induction fields with
  | nil => cases h
  | cons p rest ih =>
    obtain ⟨k, d'⟩ := p
    rw [find?] at h
    split at h
    · cases h
      simp only [Document.object.sizeOf_spec, List.cons.sizeOf_spec, Prod.mk.sizeOf_spec]
      omega
    · have := ih h
      simp only [Document.object.sizeOf_spec, List.cons.sizeOf_spec] at this ⊢
      omega

theorem Document.Members.sizeOf_lt {fields : Table Document} {key : String} {ds : List Document}
    (h : Members fields key ds) : sizeOf ds < sizeOf (Document.object fields) := by
  cases h with
  | lacking => cases fields <;> simp
  | list h =>
    have := Table.sizeOf_lt_of_find? h
    simp only [Document.list.sizeOf_spec] at this
    omega

/-! ## What is read has a derivation -/

namespace Decode

open Document

mutual

theorem node_sound (d : Document) {place : Place} {n : Node} (h : node place d = .ok n) :
    d.DenotesNode n := by
  obtain ⟨fields, rfl⟩ : ∃ fields, d = .object fields := by
    cases d with
    | object fields => exact ⟨fields, rfl⟩
    | _ => simp [node, fault] at h
  obtain ⟨name, hname⟩ : ∃ name, Table.find? fields "type" = some (.string name) := by
    simp only [node] at h
    split at h
    · exact ⟨_, ‹_›⟩
    · cases h
  obtain ⟨type, ht⟩ : ∃ type, NodeType.ofText? name = some type := by
    by_contra hne
    simp [node, hname, Option.eq_none_iff_forall_ne_some.2 fun t ht => hne ⟨t, ht⟩, fault] at h
  have htype : HasType fields type := by rw [HasType, text_of_ofText? ht, hname]
  cases type with
  | module =>
    simp only [node, hname, ht, bind_eq_ok, pure_eq_ok, itemsField_eq_ok_iff] at h
    obtain ⟨items, ⟨ds, hds, hitems⟩, rfl⟩ := h
    have hlt : sizeOf ds < sizeOf (Document.object fields) := (Members.list hds).sizeOf_lt
    exact DenotesModule.items htype hds (itemList_sound ds hitems)
  | exportItem =>
    simp only [node, hname, ht, bind_eq_ok, pure_eq_ok, nameList_eq_ok_iff] at h
    obtain ⟨names, hnames, rfl⟩ := h
    exact DenotesItem.exports htype hnames
  | importItem =>
    simp only [node, hname, ht, bind_eq_ok, pure_eq_ok, nameList_eq_ok_iff,
      stringField_eq_ok_iff] at h
    obtain ⟨module, hmodule, names, hnames, rfl⟩ := h
    exact DenotesItem.imports htype hmodule hnames
  | functionDefinition =>
    simp only [node, hname, ht, bind_eq_ok, pure_eq_ok, nameList_eq_ok_iff,
      stringField_eq_ok_iff, exprField_eq_ok_iff] at h
    obtain ⟨f, hf, parameters, hparameters, body, hbody, rfl⟩ := h
    obtain ⟨hl, rfl⟩ | ⟨b, e, hb, he, rfl⟩ := hbody
    · exact DenotesItem.bodyless htype hf hparameters hl
    · have hlt := Table.sizeOf_lt_of_find? hb
      exact DenotesItem.define htype hf hparameters hb (node_sound b he) (isBody_bodyOf e)
  | block =>
    simp only [node, hname, ht, bind_eq_ok, pure_eq_ok, exprsField_eq_ok_iff] at h
    obtain ⟨es, ⟨ds, hds, hes⟩, rfl⟩ := h
    have hlt := hds.sizeOf_lt
    exact Denotes.block htype hds (exprs_sound ds hes)
  | assignment =>
    simp only [node, hname, ht, bind_eq_ok, pure_eq_ok, stringField_eq_ok_iff,
      required_eq_ok_iff] at h
    obtain ⟨x, hx, e, ⟨v, hv, he⟩, rfl⟩ := h
    have hlt := Table.sizeOf_lt_of_find? hv
    exact Denotes.assign htype hx hv (node_sound v he)
  | invoke =>
    simp only [node, hname, ht, bind_eq_ok, pure_eq_ok, stringField_eq_ok_iff] at h
    obtain ⟨x, hx, rfl⟩ := h
    exact Denotes.var htype hx
  | stringLiteral =>
    simp only [node, hname, ht, bind_eq_ok, pure_eq_ok, stringField_eq_ok_iff] at h
    obtain ⟨x, hx, rfl⟩ := h
    exact Denotes.string htype hx
  | integerLiteral =>
    simp only [node, hname, ht, bind_eq_ok, pure_eq_ok, integer_eq_ok_iff] at h
    obtain ⟨x, ⟨number, hnumber, hx⟩, rfl⟩ := h
    exact Denotes.integer htype hnumber hx
  | floatLiteral =>
    simp only [node, hname, ht, bind_eq_ok, pure_eq_ok, float_eq_ok_iff] at h
    obtain ⟨x, ⟨number, hnumber, hx⟩, rfl⟩ := h
    exact Denotes.float htype hnumber hx
  | booleanLiteral =>
    simp only [node, hname, ht] at h
    split at h
    next b hb =>
      cases h
      exact Denotes.bool htype hb
    next => cases h
  | listLiteral =>
    simp only [node, hname, ht, bind_eq_ok, pure_eq_ok, exprsField_eq_ok_iff] at h
    obtain ⟨es, ⟨ds, hds, hes⟩, rfl⟩ := h
    have hlt := hds.sizeOf_lt
    exact Denotes.list htype hds (exprs_sound ds hes)
  | mapLiteral =>
    simp only [node, hname, ht, bind_eq_ok, pure_eq_ok, entriesField_eq_ok_iff] at h
    obtain ⟨es, ⟨ds, hds, hes⟩, rfl⟩ := h
    have hlt := hds.sizeOf_lt
    exact Denotes.map htype hds (entries_sound ds hes)
  | functionCall =>
    simp only [node, hname, ht, bind_eq_ok, pure_eq_ok, path_eq_ok_iff,
      exprsField_eq_ok_iff] at h
    obtain ⟨p, ⟨inner, hinner, hmodule, hitem⟩, es, ⟨ds, hds, hes⟩, rfl⟩ := h
    have hlt := hds.sizeOf_lt
    exact Denotes.call htype hinner hmodule hitem hds (exprs_sound ds hes)
  | condition =>
    simp only [node, hname, ht, bind_eq_ok, pure_eq_ok, required_eq_ok_iff] at h
    obtain ⟨test, ⟨dt, hdt, htest⟩, a, ⟨da, hda, ha⟩, b, ⟨db, hdb, hb⟩, rfl⟩ := h
    have hlt := Table.sizeOf_lt_of_find? hdt
    have hla := Table.sizeOf_lt_of_find? hda
    have hlb := Table.sizeOf_lt_of_find? hdb
    exact Denotes.cond htype hdt (node_sound dt htest) hda (node_sound da ha) hdb
      (node_sound db hb)
  | loop =>
    simp only [node, hname, ht, bind_eq_ok, pure_eq_ok, required_eq_ok_iff] at h
    obtain ⟨e, ⟨b, hb, he⟩, rfl⟩ := h
    have hlt := Table.sizeOf_lt_of_find? hb
    exact Denotes.loop htype hb (node_sound b he)
  | ret =>
    simp only [node, hname, ht, bind_eq_ok, pure_eq_ok, exprField_eq_ok_iff] at h
    obtain ⟨r, ⟨hl, rfl⟩ | ⟨a, e, ha, he, rfl⟩, rfl⟩ := h
    · exact Denotes.retNothing htype hl
    · have hlt := Table.sizeOf_lt_of_find? ha
      exact Denotes.ret htype ha (node_sound a he)
  | brk =>
    simp only [node, hname, ht, bind_eq_ok, pure_eq_ok, exprField_eq_ok_iff] at h
    obtain ⟨r, ⟨hl, rfl⟩ | ⟨a, e, ha, he, rfl⟩, rfl⟩ := h
    · exact Denotes.brkNothing htype hl
    · have hlt := Table.sizeOf_lt_of_find? ha
      exact Denotes.brk htype ha (node_sound a he)
termination_by sizeOf d

theorem exprs_sound (ds : List Document) {place : Place} {i : Nat} {es : List Expr}
    (h : exprs place i ds = .ok es) : DenotesAll ds es := by
  cases ds with
  | nil =>
    simp only [exprs] at h
    cases h
    exact .nil
  | cons d ds =>
    simp only [exprs, bind_eq_ok, pure_eq_ok, asExpr_eq_ok_iff] at h
    obtain ⟨e, he, es, hes, rfl⟩ := h
    exact .cons (node_sound d he) (exprs_sound ds hes)
termination_by sizeOf ds

theorem entries_sound (ds : List Document) {place : Place} {i : Nat} {es : List Entry}
    (h : entries place i ds = .ok es) : DenotesEntries ds es := by
  cases ds with
  | nil =>
    simp only [entries] at h
    cases h
    exact .nil
  | cons d ds =>
    cases d with
    | object fields =>
      simp only [entries, bind_eq_ok, pure_eq_ok, stringField_eq_ok_iff, required_eq_ok_iff] at h
      obtain ⟨key, hkey, e, ⟨v, hv, he⟩, es, hes, rfl⟩ := h
      have hlt : sizeOf v < sizeOf (Document.object fields :: ds) := by
        have := Table.sizeOf_lt_of_find? hv
        rw [List.cons.sizeOf_spec]
        omega
      exact .cons hkey hv (node_sound v he) (entries_sound ds hes)
    | _ => simp [entries, fault] at h
termination_by sizeOf ds

theorem itemList_sound (ds : List Document) {place : Place} {i : Nat} {items : List Item}
    (h : itemList place i ds = .ok items) : List.Forall₂ DenotesItem ds items := by
  cases ds with
  | nil =>
    simp only [itemList] at h
    cases h
    exact .nil
  | cons d ds =>
    simp only [itemList, bind_eq_ok, pure_eq_ok, asItem_eq_ok_iff] at h
    obtain ⟨item, hitem, items, hitems, rfl⟩ := h
    exact .cons (node_sound d hitem) (itemList_sound ds hitems)
termination_by sizeOf ds

end

end Decode

/-! ## What is derived is read -/

namespace Document

mutual

theorem Denotes.node {d : Document} {e : Expr} : d.Denotes e → ∀ place : Place,
    Decode.node place d = .ok (.expr e)
  | .block htype hds hes, place => by
    have h := Decode.exprsField_eq_ok_iff.2 ⟨_, hds, hes.exprs (.field "expressions" :: place) 0⟩
    simp only [Decode.node, htype.eq, NodeType.ofText?_text, h]
    rfl
  | .assign htype hname hv he, place => by
    have h := Decode.required_eq_ok_iff.2 ⟨_, hv, he.node (.field "value" :: place)⟩
    simp only [Decode.node, htype.eq, NodeType.ofText?_text, Decode.stringField_eq_ok_iff.2 hname, h]
    rfl
  | .var htype hname, place => by
    simp only [Decode.node, htype.eq, NodeType.ofText?_text, Decode.stringField_eq_ok_iff.2 hname]
    rfl
  | .string htype hs, place => by
    simp only [Decode.node, htype.eq, NodeType.ofText?_text, Decode.stringField_eq_ok_iff.2 hs]
    rfl
  | .integer htype hnumber hn, place => by
    have h : Decode.integer (.field "value" :: place) _ = .ok _ :=
      Decode.integer_eq_ok_iff.2 ⟨_, hnumber, hn⟩
    simp only [Decode.node, htype.eq, NodeType.ofText?_text, h]
    rfl
  | .float htype hnumber hx, place => by
    have h : Decode.float (.field "value" :: place) _ = .ok _ :=
      Decode.float_eq_ok_iff.2 ⟨_, hnumber, hx⟩
    simp only [Decode.node, htype.eq, NodeType.ofText?_text, h]
    rfl
  | .bool htype hb, place => by
    simp only [Decode.node, htype.eq, NodeType.ofText?_text, hb]
  | .list htype hds hes, place => by
    have h := Decode.exprsField_eq_ok_iff.2 ⟨_, hds, hes.exprs (.field "elements" :: place) 0⟩
    simp only [Decode.node, htype.eq, NodeType.ofText?_text, h]
    rfl
  | .map htype hds hes, place => by
    have h := Decode.entriesField_eq_ok_iff.2 ⟨_, hds, hes.entries (.field "entries" :: place) 0⟩
    simp only [Decode.node, htype.eq, NodeType.ofText?_text, h]
    rfl
  | .call htype hinner hmodule hitem hds hes, place => by
    have hp : Decode.path _ place = .ok ⟨_, _⟩ :=
      Decode.path_eq_ok_iff.2 ⟨_, hinner, hmodule, hitem⟩
    have h := Decode.exprsField_eq_ok_iff.2 ⟨_, hds, hes.exprs (.field "arguments" :: place) 0⟩
    simp only [Decode.node, htype.eq, NodeType.ofText?_text, hp, h]
    rfl
  | .cond htype hdt htest hda ha hdb hb, place => by
    have ht := Decode.required_eq_ok_iff.2 ⟨_, hdt, htest.node (.field "test" :: place)⟩
    have ha := Decode.required_eq_ok_iff.2 ⟨_, hda, ha.node (.field "whenTrue" :: place)⟩
    have hb := Decode.required_eq_ok_iff.2 ⟨_, hdb, hb.node (.field "whenFalse" :: place)⟩
    simp only [Decode.node, htype.eq, NodeType.ofText?_text, ht, ha, hb]
    rfl
  | .loop htype hb he, place => by
    have h := Decode.required_eq_ok_iff.2 ⟨_, hb, he.node (.field "body" :: place)⟩
    simp only [Decode.node, htype.eq, NodeType.ofText?_text, h]
    rfl
  | .ret htype ha he, place => by
    have h := Decode.exprField_node ha (he.node (.field "argument" :: place))
    simp only [Decode.node, htype.eq, NodeType.ofText?_text, h]
    rfl
  | .retNothing htype hl, place => by
    simp only [Decode.node, htype.eq, NodeType.ofText?_text, Decode.exprField_lacking hl]
    rfl
  | .brk htype ha he, place => by
    have h := Decode.exprField_node ha (he.node (.field "argument" :: place))
    simp only [Decode.node, htype.eq, NodeType.ofText?_text, h]
    rfl
  | .brkNothing htype hl, place => by
    simp only [Decode.node, htype.eq, NodeType.ofText?_text, Decode.exprField_lacking hl]
    rfl

theorem DenotesAll.exprs {ds : List Document} {es : List Expr} : DenotesAll ds es →
    ∀ (place : Place) (i : Nat), Decode.exprs place i ds = .ok es
  | .nil, _, _ => by simp only [Decode.exprs]
  | .cons he hes, place, i => by
    simp only [Decode.exprs, he.node, hes.exprs, Decode.asExpr]
    rfl

theorem DenotesEntries.entries {ds : List Document} {es : List Entry} : DenotesEntries ds es →
    ∀ (place : Place) (i : Nat), Decode.entries place i ds = .ok es
  | .nil, _, _ => by simp only [Decode.entries]
  | .cons hkey hv he hes, place, i => by
    have h := Decode.required_eq_ok_iff.2 ⟨_, hv, he.node (.field "value" :: .index i :: place)⟩
    simp only [Decode.entries, Decode.stringField_eq_ok_iff.2 hkey, h, hes.entries]
    rfl

end

theorem DenotesItem.node {d : Document} {i : Item} (h : d.DenotesItem i) (place : Place) :
    Decode.node place d = .ok (.item i) := by
  cases h with
  | exports htype hnames =>
    simp only [Decode.node, htype.eq, NodeType.ofText?_text, Decode.nameList_eq_ok_iff.2 hnames]
    rfl
  | imports htype hmodule hnames =>
    simp only [Decode.node, htype.eq, NodeType.ofText?_text,
      Decode.stringField_eq_ok_iff.2 hmodule, Decode.nameList_eq_ok_iff.2 hnames]
    rfl
  | define htype hname hparameters hb he hbody =>
    have h := Decode.exprField_node hb (he.node (.field "body" :: place))
    simp only [Decode.node, htype.eq, NodeType.ofText?_text, Decode.stringField_eq_ok_iff.2 hname,
      Decode.nameList_eq_ok_iff.2 hparameters, h, ← Decode.bodyOf_of_isBody hbody]
    rfl
  | bodyless htype hname hparameters hl =>
    simp only [Decode.node, htype.eq, NodeType.ofText?_text, Decode.stringField_eq_ok_iff.2 hname,
      Decode.nameList_eq_ok_iff.2 hparameters, Decode.exprField_lacking hl]
    rfl

theorem itemList_of_denotes {ds : List Document} {items : List Item}
    (h : List.Forall₂ DenotesItem ds items) (place : Place) :
    ∀ i, Decode.itemList place i ds = .ok items := by
  induction h with
  | nil =>
    intro i
    simp only [Decode.itemList]
  | cons hitem _ ih =>
    intro i
    simp only [Decode.itemList, hitem.node, ih, Decode.asItem]
    rfl

theorem DenotesModule.node {d : Document} {m : Module} (h : d.DenotesModule m) (place : Place) :
    Decode.node place d = .ok (.module m) := by
  cases h with
  | items htype hds hitems =>
    have h := Decode.itemsField_eq_ok_iff.2
      ⟨_, hds, itemList_of_denotes hitems (.field "items" :: place) 0⟩
    simp only [Decode.node, htype.eq, NodeType.ofText?_text, h]
    rfl

end Document

theorem Decode.node_eq_ok_iff {d : Document} {place : Place} {n : Node} :
    node place d = .ok n ↔ d.DenotesNode n := by
  refine ⟨node_sound d, fun h => ?_⟩
  cases n with
  | expr e => exact Document.Denotes.node h place
  | item i => exact Document.DenotesItem.node h place
  | module m => exact Document.DenotesModule.node h place

/-! ## Whole documents -/

theorem Document.toExpr_eq_ok_iff {d : Document} {e : Expr} :
    d.toExpr = .ok e ↔ d.Denotes e := by
  cases d with
  | object fields =>
    simp only [toExpr, Decode.expr, Decode.asExpr_eq_ok_iff, Decode.node_eq_ok_iff]
    rfl
  | _ => constructor <;> (intro h; cases h)

theorem Document.toModule_eq_ok_iff {d : Document} {m : Module} :
    d.toModule = .ok m ↔ d.DenotesModule m := by
  cases d with
  | object fields =>
    simp only [toModule, Decode.bind_eq_ok, Decode.node_eq_ok_iff]
    constructor
    · rintro ⟨n, hn, h⟩
      cases n with
      | module m' =>
        cases h
        exact hn
      | _ => cases h
    · intro h
      exact ⟨.module m, h, rfl⟩
  | _ => constructor <;> (intro h; cases h)

theorem Except.mapError_eq_ok_iff {ε ε' α : Type} {x : Except ε α} {f : ε → ε'} {a : α} :
    x.mapError f = .ok a ↔ x = .ok a := by
  cases x <;> simp [Except.mapError]

/-- A document is read as a tree exactly if the grammar derives the tree from it, and bytes are read
as a tree exactly if they hold such a document. -/
theorem trees_read_iff_derived :
    (∀ (d : Document) (e : Expr), d.toExpr = .ok e ↔ d.Denotes e) ∧
    (∀ (d : Document) (m : Module), d.toModule = .ok m ↔ d.DenotesModule m) ∧
    (∀ (f : Format) (bytes : List UInt8) (e : Expr),
      f.readExpr bytes = .ok e ↔ ∃ d, f.document bytes = .ok d ∧ d.Denotes e) ∧
    ∀ (f : Format) (bytes : List UInt8) (m : Module),
      f.readModule bytes = .ok m ↔ ∃ d, f.document bytes = .ok d ∧ d.DenotesModule m := by
  refine ⟨fun d e => Document.toExpr_eq_ok_iff, fun d m => Document.toModule_eq_ok_iff, ?_, ?_⟩
  · intro f bytes e
    cases h : f.document bytes with
    | error e => simp [Format.readExpr, h, bind, Except.bind]
    | ok d =>
      simp [Format.readExpr, h, bind, Except.bind, Except.mapError_eq_ok_iff,
        Document.toExpr_eq_ok_iff]
  · intro f bytes m
    cases h : f.document bytes with
    | error e => simp [Format.readModule, h, bind, Except.bind]
    | ok d =>
      simp [Format.readModule, h, bind, Except.bind, Except.mapError_eq_ok_iff,
        Document.toModule_eq_ok_iff]

end Arbor
