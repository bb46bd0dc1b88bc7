import Arbor.Proofs.Number.Rounding
import Arbor.Proofs.Tree.Grammar
import Mathlib.Data.List.TakeWhile

/-!
Integers in two notations.

One notation keeps the literals of numbers, the other one their values. `Document.spelled` goes from
values to literals, and on documents over 64-bit integers every reader of a field gives the same
answer before and after, errors included. Only a float literal asks for more: beyond `2 ^ 53` its
literal is rounded twice and its value once.
-/

set_option autoImplicit false

namespace Arbor

open Layout

namespace Document

mutual

/-- The document with its integers as decimal literals. -/
def spelled : Document → Document
  | .number (.integer n) => .number (.literal (toString n))
  | .list ds => .list (spelledAll ds)
  | .object fields => .object (spelledFields fields)
  | d => d

def spelledAll : List Document → List Document
  | [] => []
  | d :: ds => d.spelled :: spelledAll ds

def spelledFields : List (String × Document) → List (String × Document)
  | [] => []
  | (k, d) :: rest => (k, d.spelled) :: spelledFields rest

end

@[simp]
theorem spelled_integer (n : Int) : spelled (.number (.integer n)) = .number (.literal (toString n)) :=
  rfl

@[simp]
theorem spelled_literal (s : String) : spelled (.number (.literal s)) = .number (.literal s) := rfl

@[simp]
theorem spelled_double (x : Double) : spelled (.number (.double x)) = .number (.double x) := rfl

@[simp]
theorem spelled_null : spelled .null = .null := rfl

@[simp]
theorem spelled_bool (b : Bool) : spelled (.bool b) = .bool b := rfl

@[simp]
theorem spelled_string (s : String) : spelled (.string s) = .string s := rfl

@[simp]
theorem spelled_other : spelled .other = .other := rfl

@[simp]
theorem spelled_list (ds : List Document) : spelled (.list ds) = .list (spelledAll ds) := rfl

@[simp]
theorem spelled_object (fields : Table Document) :
    spelled (.object fields) = .object (spelledFields fields) := rfl

@[simp]
theorem spelledAll_cons (d : Document) (ds : List Document) :
    spelledAll (d :: ds) = d.spelled :: spelledAll ds := rfl

@[simp]
theorem spelledFields_cons (key : String) (d : Document) (rest : List (String × Document)) :
    spelledFields ((key, d) :: rest) = (key, d.spelled) :: spelledFields rest := rfl

/-- All numbers are integers of 64 bits, and those that are values of float literals have doubles of
their own. -/
inductive Integral : Document → Prop where
  | null : Integral .null
  | bool (b : Bool) : Integral (.bool b)
  | string (s : String) : Integral (.string s)
  | other : Integral .other
  | integer {n : Int} : Decode.inRange64 n → Integral (.number (.integer n))
  | list {ds : List Document} : (∀ d ∈ ds, Integral d) → Integral (.list ds)
  | object {fields : Table Document} : (∀ p ∈ fields, Integral p.2) →
      (HasType fields .floatLiteral → ∀ n : Int,
        Table.find? fields "value" = some (.number (.integer n)) → n.natAbs ≤ 2 ^ 53) →
      Integral (.object fields)

theorem find?_spelled (fields : Table Document) (key : String) :
    Table.find? (spelledFields fields) key = (Table.find? fields key).map spelled := by
  induction fields with
  | nil => rfl
  | cons p rest ih =>
    obtain ⟨k, d⟩ := p
    rw [spelledFields_cons, Table.find?, Table.find?]
    split
    · rfl
    · exact ih

end Document

/-! ## Numbers -/

theorem Decimal.parse?_digits (negative : Bool) {cs : List Char} {n : Nat}
    (hsign : splitSign cs = (negative, Nat.toDigits 10 n)) :
    Decimal.parse? cs = some ⟨negative, n, 0⟩ := by
  have hall : ∀ c ∈ Nat.toDigits 10 n, c.isDigit = true :=
    List.all_eq_true.1 (all_isDigit_toDigits n)
  have hspan : spanDigits (Nat.toDigits 10 n) = (Nat.toDigits 10 n, []) := by
    rw [spanDigits, List.takeWhile_eq_self_iff.2 hall, List.dropWhile_eq_nil_iff.2 hall]
  simp [Decimal.parse?, hsign, hspan, Nat.toDigits_ne_nil, readExponent?, digitsValue_toDigits]
  rfl

theorem splitSign_toDigits (n : Nat) : splitSign (Nat.toDigits 10 n) = (false, Nat.toDigits 10 n) := by
  have hall := all_isDigit_toDigits n
  cases hds : Nat.toDigits 10 n with
  | nil => rfl
  | cons c cs =>
    rw [hds] at hall
    have hc : c.isDigit = true := (List.all_eq_true.1 hall) c List.mem_cons_self
    unfold splitSign
    split
    next h =>
      cases h
      cases hc
    next h =>
      cases h
      cases hc
    next => rfl

theorem Decimal.parse?_toString (n : Int) :
    Decimal.parse? (toString n).toList = some ⟨decide (n < 0), n.natAbs, 0⟩ := by
  rw [Int.toString_eq_repr]
  cases n with
  | ofNat k =>
    apply Decimal.parse?_digits
    rw [show (Int.ofNat k).repr.toList = Nat.toDigits 10 k from Nat.toList_repr]
    exact splitSign_toDigits k
  | negSucc k =>
    apply Decimal.parse?_digits
    rw [Int.repr, String.toList_append, Nat.toList_repr]
    simp [splitSign]

namespace Decode

theorem integer_spelled (place : Place) {n : Int} (h : inRange64 n = true) :
    integer place (some (.number (.literal (toString n)))) =
      integer place (some (.number (.integer n))) := by
  simp only [integer, integerLiteral?_toString, h, if_true]

theorem float_spelled (place : Place) {n : Int} (h : n.natAbs ≤ 2 ^ 53) :
    float place (some (.number (.literal (toString n)))) =
      float place (some (.number (.integer n))) := by
  simp only [float, Decimal.parse?_toString, Option.bind_some, Decimal.toDouble?_integer _ h]
  rw [Double.toSingle_round_integer _ h]
  rfl

/-! ## Fields without expressions -/

open Document

theorem stringField_spelled (fields : Table Document) (key : String) (place : Place) :
    stringField (spelledFields fields) key place = stringField fields key place := by
  unfold stringField
  rw [find?_spelled]
  cases h : Table.find? fields key with
  | none => rfl
  | some d =>
    cases d with
    | number number => cases number <;> rfl
    | _ => rfl

theorem names_spelled (place : Place) (i : Nat) (ds : List Document) :
    names place i (spelledAll ds) = names place i ds := by
  induction ds generalizing i with
  | nil => rfl
  | cons d ds ih =>
    cases d with
    | string s =>
      simp only [spelledAll_cons, spelled_string, names, ih]
    | number number => cases number <;> rfl
    | _ => rfl

theorem nameList_spelled (fields : Table Document) (key : String) (place : Place) :
    nameList (spelledFields fields) key place = nameList fields key place := by
  unfold nameList
  rw [find?_spelled]
  cases h : Table.find? fields key with
  | none => rfl
  | some d =>
    cases d with
    | number number => cases number <;> rfl
    | list ds => exact names_spelled _ _ ds
    | _ => rfl

theorem path_spelled (fields : Table Document) (place : Place) :
    path (spelledFields fields) place = path fields place := by
  unfold path
  rw [find?_spelled]
  cases h : Table.find? fields "path" with
  | none => rfl
  | some d =>
    cases d with
    | number number => cases number <;> rfl
    | object inner => simp only [Option.map_some, spelled_object, stringField_spelled]
    | _ => rfl

theorem integerField_spelled {fields : Table Document} (place : Place)
    (h : ∀ p ∈ fields, Integral p.2) :
    integer place (Table.find? (spelledFields fields) "value") =
      integer place (Table.find? fields "value") := by
  rw [find?_spelled]
  cases hd : Table.find? fields "value" with
  | none => rfl
  | some d =>
    have hintegral : Integral d := h (_, d) (Table.mem_of_find? hd)
    cases hintegral with
    | integer hn => exact integer_spelled place hn
    | _ => rfl

theorem floatField_spelled {fields : Table Document} (place : Place)
    (h : ∀ p ∈ fields, Integral p.2)
    (hsmall : ∀ n : Int, Table.find? fields "value" = some (.number (.integer n)) →
      n.natAbs ≤ 2 ^ 53) :
    float place (Table.find? (spelledFields fields) "value") =
      float place (Table.find? fields "value") := by
  rw [find?_spelled]
  cases hd : Table.find? fields "value" with
  | none => rfl
  | some d =>
    have hintegral : Integral d := h (_, d) (Table.mem_of_find? hd)
    cases hintegral with
    | integer hn => exact float_spelled place (hsmall _ hd)
    | _ => rfl

theorem boolField_spelled (fields : Table Document) (place : Place) :
    (match Table.find? (spelledFields fields) "value" with
      | some (.bool b) => .ok (.expr (.bool b))
      | _ => fault (.field "value" :: place) .expectedBoolean : Result Node) =
    match Table.find? fields "value" with
    | some (.bool b) => .ok (.expr (.bool b))
    | _ => fault (.field "value" :: place) .expectedBoolean := by
  rw [find?_spelled]
  cases h : Table.find? fields "value" with
  | none => rfl
  | some d =>
    cases d with
    | number number => cases number <;> rfl
    | _ => rfl

/-! ## Nodes -/

/-- The document is read as the same node in both notations. -/
def Alike (d : Document) : Prop := ∀ place : Place, node place d.spelled = node place d

theorem field_spelled {α : Type} {read : Table Document → α} {fields : Table Document} {key : String}
    (hread : ∀ k d rest, read ((k, d) :: rest) = if k = key then read [(key, d)] else read rest)
    (h : ∀ d, Table.find? fields key = some d → read [(key, d.spelled)] = read [(key, d)]) :
    read (spelledFields fields) = read fields := by
  have hfind := find?_spelled fields key
  cases hd : Table.find? fields key with
  | none =>
    rw [hd] at hfind
    rw [eq_nil_of_find? hread hfind, eq_nil_of_find? hread hd]
  | some d =>
    rw [hd] at hfind
    rw [eq_of_find? hread hfind, eq_of_find? hread hd, h d hd]

theorem exprField_spelled {key : String} {fields : Table Document}
    (h : ∀ d, Table.find? fields key = some d → Alike d) (place : Place) :
    exprField key place (spelledFields fields) = exprField key place fields := by
  refine field_spelled (exprField_cons key place) fun d hd => ?_
  have hnode := h d hd (.field key :: place)
  cases d with
  | null | bool b | string s | other => rfl
  | number number =>
    cases number with
    | literal s => rfl
    | integer n =>
      simp only [spelled_integer] at hnode
      simp only [exprField, spelled_integer, hnode]
    | double x => rfl
  | list ds =>
    simp only [spelled_list] at hnode
    simp only [exprField, spelled_list, hnode]
  | object inner =>
    simp only [spelled_object] at hnode
    simp only [exprField, spelled_object, hnode]

theorem exprs_spelled {ds : List Document} (h : ∀ d ∈ ds, Alike d) (place : Place) (i : Nat) :
    exprs place i (spelledAll ds) = exprs place i ds := by
  induction ds generalizing i with
  | nil => rfl
  | cons d ds ih =>
    obtain ⟨hd, hds⟩ := List.forall_mem_cons.1 h
    simp only [spelledAll_cons, exprs, hd _, ih hds]

theorem exprsField_spelled {key : String} {fields : Table Document}
    (h : ∀ ds, Table.find? fields key = some (.list ds) → ∀ d ∈ ds, Alike d) (place : Place) :
    exprsField key place (spelledFields fields) = exprsField key place fields := by
  refine field_spelled (exprsField_cons key place) fun d hd => ?_
  cases d with
  | number number =>
    cases number with
    | integer n => simp only [exprsField, spelled_integer]
    | _ => rfl
  | list ds => simp only [exprsField, spelled_list, exprs_spelled (h ds hd)]
  | object inner => simp only [exprsField, spelled_object]
  | _ => rfl

theorem entries_spelled {ds : List Document}
    (h : ∀ fields, .object fields ∈ ds → ∀ d, Table.find? fields "value" = some d → Alike d)
    (place : Place) (i : Nat) : entries place i (spelledAll ds) = entries place i ds := by
  induction ds generalizing i with
  | nil => rfl
  | cons d ds ih =>
    have hds := ih fun fields hf => h fields (List.mem_cons_of_mem _ hf)
    cases d with
    | number number => cases number <;> rfl
    | object fields =>
      simp only [spelledAll_cons, spelled_object, entries, stringField_spelled, hds,
        exprField_spelled (h fields List.mem_cons_self)]
    | _ => rfl

theorem entriesField_spelled {fields : Table Document}
    (h : ∀ ds, Table.find? fields "entries" = some (.list ds) → ∀ inner, .object inner ∈ ds →
      ∀ d, Table.find? inner "value" = some d → Alike d) (place : Place) :
    entriesField place (spelledFields fields) = entriesField place fields := by
  refine field_spelled (entriesField_cons place) fun d hd => ?_
  cases d with
  | number number =>
    cases number with
    | integer n => simp only [entriesField, spelled_integer]
    | _ => rfl
  | list ds => simp only [entriesField, spelled_list, entries_spelled (h ds hd)]
  | object inner => simp only [entriesField, spelled_object]
  | _ => rfl

theorem itemList_spelled {ds : List Document} (h : ∀ d ∈ ds, Alike d) (place : Place) (i : Nat) :
    itemList place i (spelledAll ds) = itemList place i ds := by
  induction ds generalizing i with
  | nil => rfl
  | cons d ds ih =>
    obtain ⟨hd, hds⟩ := List.forall_mem_cons.1 h
    simp only [spelledAll_cons, itemList, hd _, ih hds]

theorem itemsField_spelled {fields : Table Document}
    (h : ∀ ds, Table.find? fields "items" = some (.list ds) → ∀ d ∈ ds, Alike d) (place : Place) :
    itemsField place (spelledFields fields) = itemsField place fields := by
  refine field_spelled (itemsField_cons place) fun d hd => ?_
  cases d with
  | number number =>
    cases number with
    | integer n => simp only [itemsField, spelled_integer]
    | _ => rfl
  | list ds => simp only [itemsField, spelled_list, itemList_spelled (h ds hd)]
  | object inner => simp only [itemsField, spelled_object]
  | _ => rfl

theorem alike_object {fields : Table Document} (h : (Document.object fields).Integral)
    (hfield : ∀ key d, Table.find? fields key = some d → Alike d)
    (hmember : ∀ key ds, Table.find? fields key = some (.list ds) → ∀ d ∈ ds, Alike d)
    (hentry : ∀ key ds, Table.find? fields key = some (.list ds) → ∀ inner, .object inner ∈ ds →
      ∀ key d, Table.find? inner key = some d → Alike d) : Alike (.object fields) := by
  intro place
  obtain ⟨hall, hsmall⟩ : (∀ p ∈ fields, Integral p.2) ∧ (HasType fields .floatLiteral → ∀ n : Int,
      Table.find? fields "value" = some (.number (.integer n)) → n.natAbs ≤ 2 ^ 53) := by
    cases h with
    | object hall hsmall => exact ⟨hall, hsmall⟩
  cases ht : Table.find? fields "type" with
  | none => simp only [spelled_object, node, find?_spelled, ht, Option.map_none]
  | some t =>
    cases t with
    | string name =>
      cases hn : NodeType.ofText? name with
      | none => simp only [spelled_object, node, find?_spelled, ht, Option.map_some, spelled_string, hn]
      | some type =>
        have hspelled : Table.find? (spelledFields fields) "type" = some (.string name) := by
          rw [find?_spelled, ht]
          rfl
        cases type with
        | module =>
          simp only [spelled_object, node, hspelled, ht, hn, itemsField_spelled (hmember "items")]
        | exportItem => simp only [spelled_object, node, hspelled, ht, hn, nameList_spelled]
        | importItem =>
          simp only [spelled_object, node, hspelled, ht, hn, nameList_spelled, stringField_spelled]
        | functionDefinition =>
          simp only [spelled_object, node, hspelled, ht, hn, nameList_spelled, stringField_spelled,
            exprField_spelled (hfield "body")]
        | block =>
          simp only [spelled_object, node, hspelled, ht, hn, exprsField_spelled (hmember "expressions")]
        | assignment =>
          simp only [spelled_object, node, hspelled, ht, hn, stringField_spelled,
            exprField_spelled (hfield "value")]
        | invoke => simp only [spelled_object, node, hspelled, ht, hn, stringField_spelled]
        | stringLiteral => simp only [spelled_object, node, hspelled, ht, hn, stringField_spelled]
        | integerLiteral => simp only [spelled_object, node, hspelled, ht, hn, integerField_spelled _ hall]
        | floatLiteral =>
          have htype : HasType fields .floatLiteral := by rw [HasType, text_of_ofText? hn, ht]
          simp only [spelled_object, node, hspelled, ht, hn, floatField_spelled _ hall (hsmall htype)]
        | booleanLiteral =>
          simp only [spelled_object, node, hspelled, ht, hn]
          exact boolField_spelled fields place
        | listLiteral =>
          simp only [spelled_object, node, hspelled, ht, hn, exprsField_spelled (hmember "elements")]
        | mapLiteral =>
          simp only [spelled_object, node, hspelled, ht, hn,
            entriesField_spelled fun ds hds inner hi => hentry _ ds hds inner hi "value"]
        | functionCall =>
          simp only [spelled_object, node, hspelled, ht, hn, path_spelled,
            exprsField_spelled (hmember "arguments")]
        | condition =>
          simp only [spelled_object, node, hspelled, ht, hn, exprField_spelled (hfield "test"),
            exprField_spelled (hfield "whenTrue"), exprField_spelled (hfield "whenFalse")]
        | loop => simp only [spelled_object, node, hspelled, ht, hn, exprField_spelled (hfield "body")]
        | ret => simp only [spelled_object, node, hspelled, ht, hn, exprField_spelled (hfield "argument")]
        | brk => simp only [spelled_object, node, hspelled, ht, hn, exprField_spelled (hfield "argument")]
    | number number =>
      cases number <;> simp [node, find?_spelled, ht]
    | _ => simp [node, find?_spelled, ht]

end Decode

namespace Document

theorem Integral.field {fields : Table Document} (h : (Document.object fields).Integral)
    {key : String} {d : Document} (hd : Table.find? fields key = some d) : d.Integral := by
  cases h with
  | object hall => exact hall (key, d) (Table.mem_of_find? hd)

theorem Integral.member {ds : List Document} (h : (Document.list ds).Integral) {d : Document}
    (hd : d ∈ ds) : d.Integral := by
  cases h with
  | list hall => exact hall d hd

theorem Integral.alike : ∀ {d : Document}, d.Integral → Decode.Alike d
  | .object fields, h => by
    have hmember : ∀ {key ds d}, Table.find? fields key = some (.list ds) → d ∈ ds →
        sizeOf d < sizeOf (Document.object fields) := fun hds hd =>
      (List.sizeOf_lt_of_mem hd).trans (Members.list hds).sizeOf_lt
    apply Decode.alike_object h
    · intro key d hd
      have hlt := Table.sizeOf_lt_of_find? hd
      exact (h.field hd).alike
    · intro key ds hds d hd
      have hlt := hmember hds hd
      exact ((h.field hds).member hd).alike
    · intro key ds hds inner hinner key' d hd
      have hlt := (Table.sizeOf_lt_of_find? hd).trans (hmember hds hinner)
      exact (((h.field hds).member hinner).field hd).alike
  | .number n, _ => by
    intro place
    cases n <;> rfl
  | .null, _ | .bool _, _ | .string _, _ | .list _, _ | .other, _ => by
    exact fun _ => rfl
termination_by d => sizeOf d
decreasing_by all_goals exact hlt

theorem Integral.toExpr_spelled {d : Document} (h : d.Integral) : d.spelled.toExpr = d.toExpr := by
  have hnode := h.alike []
  cases d with
  | object fields =>
    simp only [spelled_object] at hnode
    simp only [spelled_object, toExpr, Decode.expr, hnode]
  | number number => cases number <;> rfl
  | _ => rfl

theorem Integral.toModule_spelled {d : Document} (h : d.Integral) :
    d.spelled.toModule = d.toModule := by
  have hnode := h.alike []
  cases d with
  | object fields =>
    simp only [spelled_object] at hnode
    simp only [spelled_object, toModule, hnode]
  | number number => cases number <;> rfl
  | _ => rfl

end Document

/-- A document over integers is read alike from literals and from values, and so are two texts in
the two formats that hold it: the trees are the same, and so are the errors. -/
theorem notations_agree (d : Document) (h : d.Integral) :
    d.spelled.toExpr = d.toExpr ∧ d.spelled.toModule = d.toModule ∧
    ∀ literals values : List UInt8,
      Format.json.document literals = .ok d.spelled → Format.yaml.document values = .ok d →
      Format.json.readExpr literals = Format.yaml.readExpr values ∧
      Format.json.readModule literals = Format.yaml.readModule values := by
  refine ⟨h.toExpr_spelled, h.toModule_spelled, fun literals values hl hv => ?_⟩
  unfold Format.readExpr Format.readModule
  rw [hl, hv]
  change d.spelled.toExpr.mapError _ = d.toExpr.mapError _ ∧
    d.spelled.toModule.mapError _ = d.toModule.mapError _
  rw [h.toExpr_spelled, h.toModule_spelled]
  exact ⟨rfl, rfl⟩

-- Beyond `2 ^ 53` the literal is rounded to a tie first, and the value is not.
example : (Decode.float [] (some (.number (.literal "18014399583223809")))).toOption ≠
    (Decode.float [] (some (.number (.integer 18014399583223809)))).toOption := by
  decide +kernel

theorem parse_minus_three :
    (match Yaml.parse (Text.bytes "type: FloatLiteral\nvalue: -3\n") with
      | .ok (.object [(a, .string b), (c, .number (.integer n))]) =>
        decide ((a, b, c, n) = ("type", "FloatLiteral", "value", -3))
      | _ => false) = true := by
  decide +kernel

theorem notations_agree_minus_three :
    let d : Document := .object [("type", .string "FloatLiteral"), ("value", .number (.integer (-3)))]
    let literals := Text.bytes "\x7b\"type\": \"FloatLiteral\", \"value\": -3\x7d"
    let values := Text.bytes "type: FloatLiteral\nvalue: -3\n"
    d.Integral ∧ Format.json.document literals = .ok d.spelled ∧
      Format.yaml.document values = .ok d ∧
      Format.json.readExpr literals = Format.yaml.readExpr values ∧
      Format.json.readExpr literals = .ok (.float (Single.ofInt (-3))) := by
  intro d literals values
  have hintegral : d.Integral := by
    refine .object ?_ ?_
    · simp only [List.forall_mem_cons]
      exact ⟨.string _, .integer (by decide), nofun⟩
    · rintro - n ⟨⟩
      decide
  have hliterals : Format.json.document literals = .ok d.spelled :=
    Format.document_of_parse rfl
  have hvalues : Format.yaml.document values = .ok d := by
    have h := parse_minus_three
    split at h
    next hparse =>
      cases of_decide_eq_true h
      exact congrArg (Except.mapError DecodeError.yaml) hparse
    next => cases h
  have hagree := ((notations_agree d hintegral).2.2 literals values hliterals hvalues).1
  refine ⟨hintegral, hliterals, hvalues, hagree, hagree.trans ?_⟩
  exact Format.readExpr_of_document hvalues rfl

end Arbor
