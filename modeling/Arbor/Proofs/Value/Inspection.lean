import Arbor.Proofs.Text.Quoted
import Arbor.Proofs.Tree.RoundTrip
import Arbor.Proofs.Value.Equality

/-!
The text of a value tells what the value is.

Where no number has a fraction, nothing is missing and the names of fields are plain, the text of a
value can be read in one way only: followed by a comma or a closing bracket, or by nothing, it ends
where the value ends (`Value.inspect_append_inj`). So two such values have the same text exactly if
they are equal.
-/

set_option autoImplicit false

namespace Arbor.Value

/-! ## Legible values -/

/-- The characters of plain names. -/
def isNameChar (c : Char) : Bool := c.isAlphanum || c == '_'

/-- No number with a fraction and no missing value stands in the value, at any depth, and names of
fields are made of ASCII letters, digits and underscores. -/
def Legible (v : Value) : Prop :=
  ∀ c, Within c v → c ≠ .missing ∧ (∀ x, c ≠ .float x) ∧
    ∀ key ∈ c.keys, ∀ ch ∈ key.toList, isNameChar ch = true

theorem Legible.part {v w : Value} (h : v.Legible) (hw : w.Within v) : w.Legible :=
  fun c hc => h c (hc.trans hw)

theorem Legible.element {h : Handle} {es : List Value} {e : Value} (hl : (list h es).Legible)
    (he : e ∈ es) : e.Legible := hl.part (.element he .here)

theorem Legible.field {h : Handle} {fs : Table Value} {p : String × Value}
    (hl : (object h fs).Legible) (hp : p ∈ fs) : p.2.Legible := hl.part (.field hp .here)

theorem Legible.name {h : Handle} {fs : Table Value} {p : String × Value}
    (hl : (object h fs).Legible) (hp : p ∈ fs) : ∀ c ∈ p.1.toList, isNameChar c = true :=
  (hl _ .here).2.2 p.1 (List.mem_map_of_mem hp)

theorem legible_scalar {v : Value} (hv : v.handle? = Option.none) (hmissing : v ≠ .missing)
    (hfloat : ∀ x, v ≠ .float x) : v.Legible := by
  intro c hc
  cases hc with
  | here =>
    refine ⟨hmissing, hfloat, fun key hkey => ?_⟩
    cases v <;> first | cases hkey | cases hv
  | element | field => cases hv

theorem legible_list {h : Handle} {es : List Value} (hes : ∀ e ∈ es, e.Legible) :
    (list h es).Legible := by
  intro c hc
  cases hc with
  | here => exact ⟨nofun, nofun, nofun⟩
  | element he hc => exact hes _ he c hc

theorem legible_object {h : Handle} {fs : Table Value} (hfs : ∀ p ∈ fs, p.2.Legible)
    (hnames : ∀ key ∈ Table.keys fs, ∀ ch ∈ key.toList, isNameChar ch = true) :
    (object h fs).Legible := by
  intro c hc
  cases hc with
  | here => exact ⟨nofun, nofun, hnames⟩
  | field hp hc => exact hfs _ hp c hc

theorem Legible.definite {v : Value} (h : v.Legible) : v.Definite :=
  fun c hc => ⟨(h c hc).1, fun x hx => absurd hx ((h c hc).2.1 x)⟩

/-! ## Texts as characters -/

theorem inspectElements_eq (es : List Value) : inspectElements es = es.map inspect := by
  induction es with
  | nil => rfl
  | cons e es ih => exact congrArg (e.inspect :: ·) ih

theorem inspectFields_eq (fs : List (String × Value)) :
    inspectFields fs = fs.map fun p => p.1 ++ ": " ++ p.2.inspect := by
  induction fs with
  | nil => rfl
  | cons p fs ih => exact congrArg ((p.1 ++ ": " ++ p.2.inspect) :: ·) ih

theorem list_inspect (h : Handle) (es : List Value) :
    (list h es).inspect = "[" ++ String.intercalate ", " (es.map inspect) ++ "]" := by
  rw [← inspectElements_eq]
  rfl

theorem object_inspect (h : Handle) (fs : Table Value) :
    (object h fs).inspect = "\x7b" ++
      String.intercalate ", " (fs.map fun p => p.1 ++ ": " ++ p.2.inspect) ++ "\x7d" := by
  rw [← inspectFields_eq]
  rfl

/-- What comes after the first part of a container: the other parts, each after a comma, and the
closing bracket. -/
def remaining (close : Char) : List (List Char) → List Char
  | [] => [close]
  | p :: ps => ',' :: ' ' :: p ++ remaining close ps

/-- The parts of a container and its closing bracket. -/
def enclosed (close : Char) : List (List Char) → List Char
  | [] => [close]
  | p :: ps => p ++ remaining close ps

theorem enclosed_eq (close : Char) (ps : List (List Char)) :
    List.intercalate [',', ' '] ps ++ [close] = enclosed close ps := by
  cases ps with
  | nil => rfl
  | cons p ps =>
    induction ps generalizing p with
    | nil => simp [enclosed, remaining]
    | cons q ps ih =>
      rw [List.intercalate_cons_cons, List.append_assoc, ih q]
      simp [enclosed, remaining]

theorem inspect_list (h : Handle) (es : List Value) :
    (list h es).inspect.toList = '[' :: enclosed ']' (es.map fun e => e.inspect.toList) := by
  simp [list_inspect, enclosed_eq, Function.comp_def]

/-- A field as it is written. -/
def fieldText (p : String × Value) : List Char := p.1.toList ++ ':' :: ' ' :: p.2.inspect.toList

theorem inspect_object (h : Handle) (fs : Table Value) :
    (object h fs).inspect.toList = '\x7b' :: enclosed '\x7d' (fs.map fieldText) := by
  have hfield : fieldText = fun p => p.1.toList ++ ':' :: ' ' :: p.2.inspect.toList := rfl
  simp [object_inspect, enclosed_eq, Function.comp_def, hfield]

theorem inspect_string (s : String) :
    (string s).inspect.toList = '"' :: s.toList.flatMap Text.quoteChar ++ ['"'] := by
  have htext : (string s).inspect = Text.quote s := rfl
  simp [htext, Text.quote]

/-! ## Words -/

/-- The text of a value that is written as one word. -/
def word? : Value → Option String
  | integer n => some (toString n.toInt)
  | bool true => some "true"
  | bool false => some "false"
  | none => some "none"
  | _ => Option.none

def isWordChar (c : Char) : Bool := c.isAlphanum || c == '-'

theorem inspect_of_word? {v : Value} {w : String} (h : v.word? = some w) : v.inspect = w := by
  unfold word? at h
  split at h <;> cases h <;> rfl

theorem isWordChar_of_isDigit {c : Char} (h : c.isDigit = true) : isWordChar c = true := by
  simp [isWordChar, Char.isAlphanum, h]

theorem integer_word (n : Int) :
    toString n ≠ "" ∧ ∀ c ∈ (toString n).toList, isWordChar c = true := by
  rw [Int.toString_eq_repr]
  cases n with
  | ofNat k =>
    have hk : (Int.ofNat k).repr.toList = Nat.toDigits 10 k := Nat.toList_repr
    refine ⟨fun h => ?_, fun c hc => ?_⟩
    · rw [h] at hk
      exact Nat.toDigits_ne_nil hk.symm
    · rw [hk] at hc
      exact isWordChar_of_isDigit (List.all_eq_true.1 (all_isDigit_toDigits k) c hc)
  | negSucc k =>
    have hk : (Int.negSucc k).repr.toList = '-' :: Nat.toDigits 10 (k + 1) := by
      rw [Int.repr, String.toList_append, Nat.toList_repr]
      rfl
    refine ⟨fun h => ?_, fun c hc => ?_⟩
    · rw [h] at hk
      cases hk
    · rw [hk] at hc
      obtain rfl | hc := List.mem_cons.1 hc
      · rfl
      · exact isWordChar_of_isDigit (List.all_eq_true.1 (all_isDigit_toDigits _) c hc)

theorem word?_chars {v : Value} {w : String} (h : v.word? = some w) :
    w ≠ "" ∧ ∀ c ∈ w.toList, isWordChar c = true := by
  unfold word? at h
  split at h <;> cases h
  · exact integer_word _
  all_goals exact ⟨by decide, List.all_eq_true.1 (by decide)⟩

theorem toString_ne {w : String} (hw : Decode.integerLiteral? w = Option.none) (n : Int) :
    toString n ≠ w := by
  rintro rfl
  cases hw.symm.trans (Decode.integerLiteral?_toString n)

/-- The value a word is written for. -/
def ofWord (w : String) : Value :=
  if w = "true" then bool true
  else if w = "false" then bool false
  else if w = "none" then none
  else integer (Int32.ofInt ((Decode.integerLiteral? w).getD 0))

theorem ofWord_of_word? {v : Value} {w : String} (h : v.word? = some w) : ofWord w = v := by
  unfold word? at h
  split at h <;> cases h
  next n =>
    rw [ofWord, if_neg (toString_ne (by decide) _), if_neg (toString_ne (by decide) _),
      if_neg (toString_ne (by decide) _), Decode.integerLiteral?_toString, Option.getD_some,
      Int32.ofInt_toInt]
  all_goals rfl

/-! ## Where a text ends -/

/-- What can follow the text of a value: nothing, a comma or a closing bracket. -/
def Ends (r : List Char) : Prop := ∀ c ∈ r.head?, c ∈ [',', ']', '\x7d']

/-- A run of characters of one sort ends at the first one of another. -/
theorem run_append_inj {p : Char → Bool} {v w r s : List Char} (hv : ∀ c ∈ v, p c = true)
    (hw : ∀ c ∈ w, p c = true) (hr : ∀ c ∈ r.head?, p c = false) (hs : ∀ c ∈ s.head?, p c = false)
    (h : v ++ r = w ++ s) : v = w ∧ r = s := by
  have hstop : ∀ r : List Char, (∀ c ∈ r.head?, p c = false) → r.takeWhile p = [] := by
    intro r hr
    cases r with
    | nil => rfl
    | cons c r => rw [List.takeWhile_cons, hr c rfl]; rfl
  have htake := congrArg (List.takeWhile p) h
  rw [List.takeWhile_append_of_pos hv, List.takeWhile_append_of_pos hw, hstop r hr, hstop s hs,
    List.append_nil, List.append_nil] at htake
  subst htake
  exact ⟨rfl, List.append_cancel_left h⟩

theorem ends_nil : Ends [] := by
  rintro c ⟨⟩

theorem Ends.not_word {r : List Char} (h : Ends r) : ∀ c ∈ r.head?, isWordChar c = false := by
  have hall : ∀ c ∈ [',', ']', '\x7d'], isWordChar c = false := by
    simp only [List.forall_mem_cons]
    exact ⟨by decide, by decide, by decide, nofun⟩
  exact fun c hc => hall c (h c hc)

theorem ends_remaining {close : Char} (hclose : close ∈ [']', '\x7d']) (ps : List (List Char))
    (r : List Char) : Ends (remaining close ps ++ r) := by
  cases ps with
  | nil =>
    rintro c ⟨⟩
    exact List.mem_cons_of_mem _ hclose
  | cons p ps =>
    rintro c ⟨⟩
    exact List.mem_cons_self

section

variable {α : Type} {text : α → List Char} {close : Char} {good : α → Prop} {R : α → α → Prop}

/-- The parts of a container that goes on alike are alike, if each part can be read. -/
theorem remaining_append_inj (hclose : close ∈ [']', '\x7d']) {xs ys : List α} {r s : List Char}
    (hread : ∀ x ∈ xs, ∀ y r s, good y → Ends r → Ends s → text x ++ r = text y ++ s → R x y ∧ r = s)
    (hys : ∀ y ∈ ys, good y)
    (h : remaining close (xs.map text) ++ r = remaining close (ys.map text) ++ s) :
    List.Forall₂ R xs ys ∧ r = s := by
  have hcomma : close ≠ ',' := by
    rintro rfl
    revert hclose
    decide
  induction xs generalizing ys with
  | nil =>
    cases ys with
    | nil => exact ⟨.nil, (List.cons.inj h).2⟩
    | cons y ys => exact absurd (List.cons.inj h).1 hcomma
  | cons x xs ih =>
    cases ys with
    | nil => exact absurd (List.cons.inj h).1.symm hcomma
    | cons y ys =>
      obtain ⟨hx, hxs⟩ := List.forall_mem_cons.1 hread
      obtain ⟨hy, hys⟩ := List.forall_mem_cons.1 hys
      simp only [List.map_cons, remaining, List.cons_append, List.cons.injEq, true_and,
        List.append_assoc] at h
      obtain ⟨hxy, hrest⟩ :=
        hx y _ _ hy (ends_remaining hclose _ r) (ends_remaining hclose _ s) h
      obtain ⟨hall, hrs⟩ := ih hxs hys hrest
      exact ⟨.cons hxy hall, hrs⟩

theorem enclosed_append_inj (hclose : close ∈ [']', '\x7d']) {xs ys : List α} {r s : List Char}
    (hread : ∀ x ∈ xs, ∀ y r s, good y → Ends r → Ends s → text x ++ r = text y ++ s → R x y ∧ r = s)
    (hstart : ∀ x r, good x → (text x ++ r).head? ≠ some close)
    (hxs : ∀ x ∈ xs, good x) (hys : ∀ y ∈ ys, good y)
    (h : enclosed close (xs.map text) ++ r = enclosed close (ys.map text) ++ s) :
    List.Forall₂ R xs ys ∧ r = s := by
  cases xs with
  | nil =>
    cases ys with
    | nil => exact ⟨.nil, (List.cons.inj h).2⟩
    | cons y ys =>
      simp only [List.map_cons, enclosed, List.append_assoc] at h
      exact absurd (congrArg List.head? h).symm (hstart y _ (hys y List.mem_cons_self))
  | cons x xs =>
    cases ys with
    | nil =>
      simp only [List.map_cons, enclosed, List.append_assoc] at h
      exact absurd (congrArg List.head? h) (hstart x _ (hxs x List.mem_cons_self))
    | cons y ys =>
      obtain ⟨hx, hxs⟩ := List.forall_mem_cons.1 hread
      obtain ⟨hy, hys⟩ := List.forall_mem_cons.1 hys
      simp only [List.map_cons, enclosed, List.append_assoc] at h
      obtain ⟨hxy, hrest⟩ :=
        hx y _ _ hy (ends_remaining hclose _ r) (ends_remaining hclose _ s) h
      obtain ⟨hall, hrs⟩ := remaining_append_inj hclose hxs hys hrest
      exact ⟨.cons hxy hall, hrs⟩

end

/-! ## How a text starts -/

/-- The sign that a text starts with, unless it starts with a word. -/
def opening? : Value → Option Char
  | string _ => some '"'
  | list .. => some '['
  | object .. => some '\x7b'
  | _ => Option.none

theorem opening?_mem {v : Value} {c : Char} (h : v.opening? = some c) : c ∈ ['"', '[', '\x7b'] := by
  unfold opening? at h
  split at h <;> cases h <;> decide

theorem Legible.word {v : Value} (h : v.Legible) (hv : v.opening? = Option.none) :
    ∃ w, v.word? = some w := by
  cases v with
  | missing => exact absurd rfl (h _ .here).1
  | float x => exact absurd rfl ((h _ .here).2.1 x)
  | bool b => cases b <;> exact ⟨_, rfl⟩
  | integer | none => exact ⟨_, rfl⟩
  | string | list | object => cases hv

theorem inspect_starts {v : Value} (h : v.Legible) : ∃ c cs, v.inspect.toList = c :: cs ∧
    (v.opening? = some c ∨ v.opening? = Option.none ∧ isWordChar c = true) := by
  cases hv : v.opening? with
  | none =>
    obtain ⟨w, hw⟩ := h.word hv
    obtain ⟨hne, hchars⟩ := word?_chars hw
    rw [inspect_of_word? hw]
    cases hcs : w.toList with
    | nil => exact absurd (String.toList_eq_nil_iff.1 hcs) hne
    | cons c cs => exact ⟨c, cs, rfl, .inr ⟨rfl, hchars c (hcs ▸ List.mem_cons_self)⟩⟩
  | some c =>
    cases v with
    | string s =>
      cases hv
      exact ⟨_, _, inspect_string s, .inl rfl⟩
    | list k es =>
      cases hv
      exact ⟨_, _, inspect_list k es, .inl rfl⟩
    | object k fs =>
      cases hv
      exact ⟨_, _, inspect_object k fs, .inl rfl⟩
    | _ => cases hv

theorem opening?_congr {a b : Value} (ha : a.Legible) (hb : b.Legible) {r s : List Char}
    (h : a.inspect.toList ++ r = b.inspect.toList ++ s) : a.opening? = b.opening? := by
  have hword : ∀ c ∈ ['"', '[', '\x7b'], isWordChar c = false := by
    simp only [List.forall_mem_cons]
    exact ⟨by decide, by decide, by decide, nofun⟩
  obtain ⟨c, cs, hc, hac⟩ := inspect_starts ha
  obtain ⟨d, ds, hd, hbd⟩ := inspect_starts hb
  rw [hc, hd] at h
  obtain rfl := (List.cons.inj h).1
  obtain hac | ⟨hac, hcw⟩ := hac <;> obtain hbd | ⟨hbd, hdw⟩ := hbd
  · rw [hac, hbd]
  · rw [hword c (opening?_mem hac)] at hdw
    cases hdw
  · rw [hword c (opening?_mem hbd)] at hcw
    cases hcw
  · rw [hac, hbd]

theorem inspect_head {v : Value} (h : v.Legible) (r : List Char) :
    (v.inspect.toList ++ r).head? ≠ some ']' := by
  obtain ⟨c, cs, hc, hopening⟩ := inspect_starts h
  rw [hc]
  rintro ⟨⟩
  obtain hopening | ⟨-, hword⟩ := hopening
  · have := opening?_mem hopening
    revert this
    decide
  · revert hword
    decide

/-! ## Reading a text -/

theorem alike_list {h k : Handle} {xs ys : List Value} (hall : List.Forall₂ Alike xs ys) :
    (list h xs).Alike (list k ys) := by
  refine .list hall.length_eq ?_
  induction hall with
  | nil => nofun
  | cons hxy _ ih =>
    intro i x y hx hy
    cases i with
    | zero =>
      cases hx
      cases hy
      exact hxy
    | succ i => exact ih i x y hx hy

/-- A field with a plain name and a legible value. -/
def LegibleField (p : String × Value) : Prop :=
  p.2.Legible ∧ ∀ c ∈ p.1.toList, isNameChar c = true

/-- The fields have the same name and hold values that are alike. -/
def AlikeField (p q : String × Value) : Prop := p.1 = q.1 ∧ p.2.Alike q.2

theorem fieldText_head {p : String × Value} (h : LegibleField p) (r : List Char) :
    (fieldText p ++ r).head? ≠ some '\x7d' := by
  unfold fieldText
  cases hk : p.1.toList with
  | nil => nofun
  | cons c cs =>
    rintro ⟨⟩
    have hc := h.2 '\x7d' (hk ▸ List.mem_cons_self)
    revert hc
    decide

theorem fieldText_append_inj {p q : String × Value} (hp : LegibleField p) (hq : LegibleField q)
    {r s : List Char} (hread : p.2.inspect.toList ++ r = q.2.inspect.toList ++ s →
      p.2.Alike q.2 ∧ r = s) (h : fieldText p ++ r = fieldText q ++ s) :
    AlikeField p q ∧ r = s := by
  have hcolon : ∀ cs : List Char, ∀ c ∈ (':' :: cs).head?, isNameChar c = false := by
    rintro cs c ⟨⟩
    decide
  simp only [fieldText, List.append_assoc, List.cons_append] at h
  obtain ⟨hname, hrest⟩ := run_append_inj hp.2 hq.2 (hcolon _) (hcolon _) h
  obtain ⟨hvalue, hrs⟩ := hread (List.cons.inj (List.cons.inj hrest).2).2
  exact ⟨⟨String.toList_injective hname, hvalue⟩, hrs⟩

theorem alike_object {h k : Handle} {fs gs : Table Value} (hall : List.Forall₂ AlikeField fs gs) :
    (object h fs).Alike (object k gs) := by
  have hfind : ∀ key, (Table.find? fs key).isSome = (Table.find? gs key).isSome ∧
      ∀ x y, Table.find? fs key = some x → Table.find? gs key = some y → x.Alike y := by
    intro key
    induction hall with
    | nil => exact ⟨rfl, nofun⟩
    | @cons p q fs gs hpq _ ih =>
      obtain ⟨k, x⟩ := p
      obtain ⟨k', y⟩ := q
      obtain ⟨rfl, hxy⟩ := hpq
      by_cases hk : k = key
      · simp only [Table.find?, hk, if_true, Option.isSome_some, true_and]
        rintro x' y' ⟨⟩ ⟨⟩
        exact hxy
      · simpa only [Table.find?, hk, if_false] using ih
  exact .object (fun key => (hfind key).1) fun key => (hfind key).2

/-- The texts of two legible values that go on alike belong to values that are alike, and end at the
same place. -/
theorem inspect_append_inj {a b : Value} (ha : a.Legible) (hb : b.Legible) {r s : List Char}
    (hr : Ends r) (hs : Ends s) (h : a.inspect.toList ++ r = b.inspect.toList ++ s) :
    a.Alike b ∧ r = s := by
  have hopening := opening?_congr ha hb h
  induction a using induction generalizing b r s with
  | scalar v hv =>
    cases hv' : v.opening? with
    | none =>
      obtain ⟨w, hw⟩ := ha.word hv'
      obtain ⟨w', hw'⟩ := hb.word (hopening.symm.trans hv')
      rw [inspect_of_word? hw, inspect_of_word? hw'] at h
      obtain ⟨hww, hrs⟩ :=
        run_append_inj (word?_chars hw).2 (word?_chars hw').2 hr.not_word hs.not_word h
      obtain rfl := String.toList_injective hww
      obtain rfl : v = b := (ofWord_of_word? hw).symm.trans (ofWord_of_word? hw')
      exact ⟨alike_self ha.definite, hrs⟩
    | some c =>
      cases v with
      | string x =>
        cases b with
        | string y =>
          rw [inspect_string, inspect_string] at h
          simp only [List.cons_append, List.append_assoc, List.nil_append, List.cons.injEq,
            true_and] at h
          obtain ⟨hxy, hrs⟩ := Text.quoted_append_inj h
          obtain rfl := String.toList_injective hxy
          exact ⟨.string x, hrs⟩
        | _ => cases hopening
      | list | object => cases hv
      | _ => cases hv'
  | list k xs ih =>
    cases b with
    | list k' ys =>
      rw [inspect_list, inspect_list] at h
      obtain ⟨hall, hrs⟩ := enclosed_append_inj (by decide)
        (fun x hx y r s hy hr hs hxy =>
          ih x hx (ha.element hx) hy hr hs hxy (opening?_congr (ha.element hx) hy hxy))
        (fun x r hx => inspect_head hx r) (fun x hx => ha.element hx) (fun y hy => hb.element hy)
        (List.cons.inj h).2
      exact ⟨alike_list hall, hrs⟩
    | _ => cases hopening
  | object k fs ih =>
    cases b with
    | object k' gs =>
      have hf : ∀ p ∈ fs, LegibleField p := fun p hp => ⟨ha.field hp, ha.name hp⟩
      have hg : ∀ q ∈ gs, LegibleField q := fun q hq => ⟨hb.field hq, hb.name hq⟩
      rw [inspect_object, inspect_object] at h
      obtain ⟨hall, hrs⟩ := enclosed_append_inj (by decide)
        (fun p hp q r s hq hr hs hpq => fieldText_append_inj (hf p hp) hq
          (fun hv => ih p hp (ha.field hp) hq.1 hr hs hv (opening?_congr (ha.field hp) hq.1 hv)) hpq)
        (fun p r hp => fieldText_head hp r) hf hg (List.cons.inj h).2
      exact ⟨alike_object hall, hrs⟩
    | _ => cases hopening

/-! ## Values that are alike have the same text -/

theorem map_eq_of_forall₂ {α β : Type} {f : α → β} {xs ys : List α}
    (h : List.Forall₂ (fun x y => f x = f y) xs ys) : xs.map f = ys.map f := by
  rw [← List.forall₂_eq_eq_eq, List.forall₂_map_left_iff, List.forall₂_map_right_iff]
  exact h

theorem forall₂_of_keys {R : Value → Value → Prop} {fs gs : Table Value}
    (hkeys : Table.keys fs = Table.keys gs)
    (hR : ∀ p ∈ fs, ∀ q ∈ gs, p.1 = q.1 → R p.2 q.2) :
    List.Forall₂ (fun p q => p.1 = q.1 ∧ R p.2 q.2) fs gs := by
  induction fs generalizing gs with
  | nil =>
    obtain rfl := List.map_eq_nil_iff.1 hkeys.symm
    exact .nil
  | cons p fs ih =>
    cases gs with
    | nil => cases hkeys
    | cons q gs =>
      obtain ⟨hpq, hrest⟩ := List.cons.inj hkeys
      refine .cons ⟨hpq, hR p List.mem_cons_self q List.mem_cons_self hpq⟩ (ih hrest ?_)
      exact fun p' hp' q' hq' => hR p' (List.mem_cons_of_mem _ hp') q' (List.mem_cons_of_mem _ hq')

/-- The fields of all objects in the value are in order. -/
def Sorted (v : Value) : Prop := ∀ h fs, Within (object h fs) v → Table.Ordered fs

theorem Sorted.part {v w : Value} (h : v.Sorted) (hw : w.Within v) : w.Sorted :=
  fun k fs hfs => h k fs (hfs.trans hw)

theorem Alike.inspect_eq {a b : Value} (h : a.Alike b) (hlegible : a.Legible) (ha : a.Sorted)
    (hb : b.Sorted) : a.inspect = b.inspect := by
  induction h with
  | string | integer | bool | none => rfl
  | float => exact absurd rfl ((hlegible _ .here).2.1 _)
  | @list h k xs ys hlength _ ih =>
    have hparts : List.Forall₂ (fun x y => x.inspect = y.inspect) xs ys := by
      refine List.forall₂_iff_get.2 ⟨hlength, fun i hx hy => ?_⟩
      have hxm : xs[i] ∈ xs := List.getElem_mem hx
      have hym : ys[i] ∈ ys := List.getElem_mem hy
      exact ih i _ _ (List.getElem?_eq_getElem hx) (List.getElem?_eq_getElem hy)
        (hlegible.element hxm) (ha.part (.element hxm .here)) (hb.part (.element hym .here))
    rw [list_inspect, list_inspect, map_eq_of_forall₂ hparts]
  | @object h k fs gs hsome _ ih =>
    have hf : Table.Ordered fs := ha h fs .here
    have hg : Table.Ordered gs := hb k gs .here
    have hkeys : Table.keys fs = Table.keys gs := by
      refine List.Pairwise.eq_of_mem_iff hf hg fun key => ?_
      rw [← Table.find?_isSome_iff, ← Table.find?_isSome_iff, hsome key]
    have hparts := forall₂_of_keys (R := fun x y => x.inspect = y.inspect) hkeys
      fun p hp q hq hpq => ih p.1 p.2 q.2 (hf.find?_of_mem hp) (hpq ▸ hg.find?_of_mem hq)
        (hlegible.field hp) (ha.part (.field hp .here)) (hb.part (.field hq .here))
    have htexts := map_eq_of_forall₂ (f := fun p : String × Value => p.1 ++ ": " ++ p.2.inspect)
      (hparts.imp fun p q hpq => by rw [hpq.1, hpq.2])
    rw [object_inspect, object_inspect, htexts]

/-! ## Equality and text -/

theorem Coexist.sorted {vs : List Value} (h : Coexist vs) {v : Value} (hv : v ∈ vs) : v.Sorted :=
  fun k fs hfs => h.ordered k fs ⟨v, hv, hfs⟩

/-- Legible values that stand side by side have the same text exactly if they are equal. -/
theorem inspect_eq_iff_equal (a b : Value) (h : Coexist [a, b]) (ha : a.Legible) (hb : b.Legible) :
    a.inspect = b.inspect ↔ a.equal b = true := by
  have hma : a ∈ [a, b] := List.mem_cons_self
  have hmb : b ∈ [a, b] := by simp
  constructor
  · intro htext
    have happend : a.inspect.toList ++ [] = b.inspect.toList ++ [] := by rw [htext]
    obtain ⟨halike, -⟩ := inspect_append_inj ha hb ends_nil ends_nil happend
    exact halike.equal h (.of_mem hma) (.of_mem hmb)
  · intro hequal
    have halike := alike_of_equal h (.of_mem hma) (.of_mem hmb) ha.definite hequal
    exact halike.inspect_eq ha (h.sorted hma) (h.sorted hmb)

/-- A list whose string looks like the end of a list. -/
def signs (h : Handle) : Value := .list h [.string "\\\"], \x7b", .integer (-3), .none]

/-- An object that holds it. -/
def labelled (h : Handle) : Value := .object (h + 1) [("a_1", signs h), ("b", .bool true)]

theorem signs_legible (h : Handle) : (signs h).Legible := by
  refine legible_list ?_
  simp only [List.forall_mem_cons]
  exact ⟨legible_scalar rfl nofun nofun, legible_scalar rfl nofun nofun,
    legible_scalar rfl nofun nofun, nofun⟩

theorem labelled_legible (h : Handle) : (labelled h).Legible := by
  have hnames : ∀ key ∈ ["a_1", "b"], ∀ ch ∈ key.toList, isNameChar ch = true := by
    simp only [List.forall_mem_cons]
    exact ⟨List.all_eq_true.1 (by decide), List.all_eq_true.1 (by decide), nofun⟩
  refine legible_object ?_ hnames
  simp only [List.forall_mem_cons]
  exact ⟨signs_legible h, legible_scalar rfl nofun nofun, nofun⟩

theorem signs_fits (l : Ledger) : (signs l.length).Fits (l ++ [signs l.length]) := by
  refine fits_list ?_
  simp only [List.forall_mem_cons]
  exact ⟨fits_scalar rfl, fits_scalar rfl, fits_scalar rfl, List.forall_mem_nil _⟩

theorem labelled_fits (l : Ledger) :
    (labelled l.length).Fits (l ++ [signs l.length, labelled l.length]) := by
  have hparts : Table.All (Value.Fits (l ++ [signs l.length]))
      [("a_1", signs l.length), ("b", .bool true)] := fun p hp => by
    simp only [List.mem_cons, List.not_mem_nil, or_false] at hp
    obtain rfl | rfl := hp
    · exact signs_fits l
    · exact fits_scalar rfl
  have hobject := fits_object hparts
  rwa [List.length_append, List.append_assoc] at hobject

theorem labelled_coexist : Coexist [labelled 0, labelled 2] := by
  have h0 := labelled_fits []
  have h2 := labelled_fits [signs 0, labelled 0]
  refine coexist_of_fits (l := [signs 0, labelled 0, signs 2, labelled 2]) ?_ ?_
  · simp only [List.forall_mem_cons]
    exact ⟨h0.mono (by simp), h2, List.forall_mem_nil _⟩
  · have hfields : ∀ h, Table.Ordered [("a_1", signs h), ("b", .bool true)] := fun h => by
      change ["a_1", "b"].Pairwise (· < ·)
      decide
    simp only [List.forall_mem_cons]
    refine ⟨?_, ?_, ?_, ?_, List.forall_mem_nil _⟩ <;> rintro h fs ⟨⟩ <;> exact hfields _

/-- Copies have the same text, whatever signs are in their strings. -/
theorem inspect_eq_iff_equal_copies : Coexist [labelled 0, labelled 2] ∧ (labelled 0).Legible ∧
    (labelled 2).Legible ∧ (labelled 0).inspect = (labelled 2).inspect :=
  ⟨labelled_coexist, labelled_legible 0, labelled_legible 2,
    (inspect_eq_iff_equal _ _ labelled_coexist (labelled_legible 0) (labelled_legible 2)).2
      (by decide)⟩

end Arbor.Value
