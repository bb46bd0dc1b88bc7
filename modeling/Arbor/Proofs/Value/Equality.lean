import Arbor.Proofs.Eval.Ledger
import Mathlib.Data.List.Sort

/-!
Equality of values.

Equality is decided by handles where it can be and by parts elsewhere. As long as containers with one
handle are the same (`Value.Coexist`), the way it is decided does not show: equality is symmetric and
transitive, only a missing value and a NaN differ from themselves, and where there are none of those
it says the same as the comparison by parts alone, `Value.Alike`.
-/

set_option autoImplicit false

namespace Arbor

/-! ## Tables -/

namespace Table

variable {α : Type} {fs gs : Table α}

/-- The tables have the same keys, and what they have under one key is related. -/
def Fieldwise (R : α → α → Prop) (fs gs : Table α) : Prop :=
  (∀ key, (find? fs key).isSome = (find? gs key).isSome) ∧
    ∀ key x y, find? fs key = some x → find? gs key = some y → R x y

theorem Fieldwise.swap {R S : α → α → Prop} (h : Fieldwise R fs gs)
    (hRS : ∀ p ∈ fs, ∀ q ∈ gs, R p.2 q.2 → S q.2 p.2) : Fieldwise S gs fs := by
  refine ⟨fun key => (h.1 key).symm, fun key y x hy hx => ?_⟩
  exact hRS _ (mem_of_find? hx) _ (mem_of_find? hy) (h.2 key x y hx hy)

theorem Fieldwise.chain {R S T : α → α → Prop} {hs : Table α} (h : Fieldwise R fs gs)
    (h' : Fieldwise S gs hs) (hT : ∀ p ∈ fs, ∀ q ∈ gs, ∀ r ∈ hs, R p.2 q.2 → S q.2 r.2 → T p.2 r.2) :
    Fieldwise T fs hs := by
  refine ⟨fun key => (h.1 key).trans (h'.1 key), fun key x z hx hz => ?_⟩
  obtain ⟨y, hy⟩ := Option.isSome_iff_exists.1 ((h.1 key).symm.trans (by rw [hx]; rfl))
  exact hT _ (mem_of_find? hx) _ (mem_of_find? hy) _ (mem_of_find? hz) (h.2 key x y hx hy)
    (h'.2 key y z hy hz)

theorem keys_eq (hf : Ordered fs) (hg : Ordered gs) (h : ∀ key ∈ keys fs, key ∈ keys gs)
    (hlength : gs.length ≤ fs.length) : keys fs = keys gs := by
  have hnodup : (keys fs).Nodup := List.Pairwise.imp (fun hlt => String.ne_of_lt hlt) hf
  have hperm : (keys fs).Perm (keys gs) :=
    (List.subperm_of_subset hnodup h).perm_of_length_le (by simpa [keys] using hlength)
  exact hperm.eq_of_pairwise (fun _ _ _ _ hab hba => (String.lt_asymm hab hba).elim) hf hg

/-- If a table has as many fields as another one, it has no others. -/
theorem fieldwise_iff {R : α → α → Prop} (hf : Ordered fs) (hg : Ordered gs) :
    (fs.length = gs.length ∧ ∀ p ∈ fs, ∃ y, find? gs p.1 = some y ∧ R p.2 y) ↔
      Fieldwise R fs gs := by
  constructor
  · rintro ⟨hlength, hall⟩
    have hkeys : keys fs = keys gs := by
      refine keys_eq hf hg (fun key hkey => ?_) hlength.ge
      obtain ⟨p, hp, rfl⟩ := List.mem_map.1 hkey
      obtain ⟨y, hy, -⟩ := hall p hp
      exact find?_isSome_iff.1 (by rw [hy]; rfl)
    refine ⟨fun key => ?_, fun key x y hx hy => ?_⟩
    · rw [Bool.eq_iff_iff, find?_isSome_iff, find?_isSome_iff, hkeys]
    · obtain ⟨y', hy', hR⟩ := hall _ (mem_of_find? hx)
      cases hy.symm.trans hy'
      exact hR
  · rintro ⟨hsome, hR⟩
    have hmem : ∀ key, key ∈ keys fs ↔ key ∈ keys gs := fun key => by
      rw [← find?_isSome_iff, ← find?_isSome_iff, hsome]
    have hkeys : keys fs = keys gs := by
      refine List.Pairwise.eq_of_mem_iff hf hg hmem
    refine ⟨by simpa [keys] using congrArg List.length hkeys, fun p hp => ?_⟩
    have hx : find? fs p.1 = some p.2 := hf.find?_of_mem hp
    obtain ⟨y, hy⟩ := Option.isSome_iff_exists.1 ((hsome p.1).symm.trans (by rw [hx]; rfl))
    exact ⟨y, hy, hR p.1 p.2 y hx hy⟩

end Table

/-! ## Numbers -/

namespace Single

theorem same_self (x : Single) : x.same x = !x.isNaN := by simp [same]

theorem same_comm (x y : Single) : x.same y = y.same x := by
  simp only [same, Bool.and_comm (!x.isNaN), Bool.and_comm x.isZero, Bool.beq_comm (a := x.bits)]

theorem same_trans {x y z : Single} (hxy : x.same y = true) (hyz : y.same z = true) :
    x.same z = true := by
  simp only [same, Bool.and_eq_true, Bool.or_eq_true, Bool.not_eq_true', beq_iff_eq] at *
  obtain ⟨⟨hx, -⟩, hxy⟩ := hxy
  obtain ⟨⟨-, hz⟩, hyz⟩ := hyz
  refine ⟨⟨hx, hz⟩, ?_⟩
  have hzero : ∀ a b : Single, a.bits = b.bits → a.isZero = b.isZero := fun a b h => by
    rw [isZero, h, isZero]
  obtain hxy | ⟨hx0, hy0⟩ := hxy <;> obtain hyz | ⟨hy0', hz0⟩ := hyz
  · exact .inl (hxy.trans hyz)
  · exact .inr ⟨(hzero x y hxy).trans hy0', hz0⟩
  · exact .inr ⟨hx0, (hzero y z hyz).symm.trans hy0⟩
  · exact .inr ⟨hx0, hz0⟩

end Single

namespace Value

/-! ## Values by their parts -/

theorem induction {P : Value → Prop} (scalar : ∀ v, v.handle? = Option.none → P v)
    (list : ∀ h es, (∀ e ∈ es, P e) → P (.list h es))
    (object : ∀ h fs, (∀ p ∈ fs, P p.2) → P (.object h fs)) : ∀ v, P v
  | .list h es => list h es fun e he =>
    have hlt : sizeOf e < sizeOf (Value.list h es) := by
      have := List.sizeOf_lt_of_mem he
      simp only [Value.list.sizeOf_spec]
      omega
    induction scalar list object e
  | .object h fs => object h fs fun p hp =>
    have hlt : sizeOf p.2 < sizeOf (Value.object h fs) := by
      have := List.sizeOf_lt_of_mem hp
      obtain ⟨k, v⟩ := p
      simp only [Value.object.sizeOf_spec, Prod.mk.sizeOf_spec] at this ⊢
      omega
    induction scalar list object p.2
  | .string _ | .integer _ | .float _ | .bool _ | .none | .missing => scalar _ rfl
termination_by v => sizeOf v
decreasing_by all_goals exact hlt

theorem Within.trans {a b c : Value} (hab : a.Within b) (hbc : b.Within c) : a.Within c := by
  induction hbc with
  | here => exact hab
  | element hv _ ih => exact .element hv ih
  | field hp _ ih => exact .field hp ih

/-- The value stands in one of the values, at any depth. -/
def Among (vs : List Value) (v : Value) : Prop := ∃ w ∈ vs, v.Within w

/-- The values stand side by side: wherever they stand, containers with one handle are the same, and
the fields of every object are in order. -/
structure Coexist (vs : List Value) : Prop where
  same : ∀ c d h, Among vs c → Among vs d → c.handle? = some h → d.handle? = some h → c = d
  ordered : ∀ h fs, Among vs (.object h fs) → Table.Ordered fs

section Among

variable {vs : List Value}

theorem Among.of_mem {v : Value} (h : v ∈ vs) : Among vs v := ⟨v, h, .here⟩

theorem Among.part {v w : Value} (h : Among vs w) (hv : v.Within w) : Among vs v := by
  obtain ⟨u, hu, hw⟩ := h
  exact ⟨u, hu, hv.trans hw⟩

theorem Among.element {h : Handle} {xs : List Value} {x : Value} (hs : Among vs (.list h xs))
    (hx : x ∈ xs) : Among vs x := hs.part (.element hx .here)

theorem Among.field {h : Handle} {fs : Table Value} {p : String × Value}
    (hs : Among vs (.object h fs)) (hp : p ∈ fs) : Among vs p.2 := hs.part (.field hp .here)

end Among

/-- The lists have the same length, and what they have at one position is related. -/
def Elementwise (R : Value → Value → Prop) (xs ys : List Value) : Prop :=
  xs.length = ys.length ∧ ∀ (i : Nat) (x y : Value), xs[i]? = some x → ys[i]? = some y → R x y

theorem Elementwise.swap {R S : Value → Value → Prop} {xs ys : List Value}
    (h : Elementwise R xs ys) (hRS : ∀ x ∈ xs, ∀ y ∈ ys, R x y → S y x) : Elementwise S ys xs := by
  refine ⟨h.1.symm, fun i y x hy hx => ?_⟩
  exact hRS x (List.mem_of_getElem? hx) y (List.mem_of_getElem? hy) (h.2 i x y hx hy)

theorem Elementwise.chain {R S T : Value → Value → Prop} {xs ys zs : List Value}
    (h : Elementwise R xs ys) (h' : Elementwise S ys zs)
    (hT : ∀ x ∈ xs, ∀ y ∈ ys, ∀ z ∈ zs, R x y → S y z → T x z) : Elementwise T xs zs := by
  refine ⟨h.1.trans h'.1, fun i x z hx hz => ?_⟩
  have hlt : i < ys.length := h.1 ▸ (List.getElem?_eq_some_iff.1 hx).1
  have hy : ys[i]? = some ys[i] := List.getElem?_eq_getElem hlt
  exact hT x (List.mem_of_getElem? hx) _ (List.mem_of_getElem? hy) z (List.mem_of_getElem? hz)
    (h.2 i x _ hx hy) (h'.2 i _ z hy hz)

/-- The comparison by parts alone: handles do not count. -/
inductive Alike : Value → Value → Prop where
  | string (s : String) : Alike (.string s) (.string s)
  | integer (n : Int32) : Alike (.integer n) (.integer n)
  | float {x y : Single} : x.same y = true → Alike (.float x) (.float y)
  | bool (b : Bool) : Alike (.bool b) (.bool b)
  | none : Alike .none .none
  | list {h k : Handle} {xs ys : List Value} : xs.length = ys.length →
      (∀ (i : Nat) (x y : Value), xs[i]? = some x → ys[i]? = some y → Alike x y) →
      Alike (.list h xs) (.list k ys)
  | object {h k : Handle} {fs gs : Table Value} :
      (∀ key, (Table.find? fs key).isSome = (Table.find? gs key).isSome) →
      (∀ key x y, Table.find? fs key = some x → Table.find? gs key = some y → Alike x y) →
      Alike (.object h fs) (.object k gs)

/-- No missing value and no NaN stands in the value, at any depth. -/
def Definite (v : Value) : Prop :=
  ∀ c, Within c v → c ≠ .missing ∧ ∀ x, c = .float x → x.isNaN = false

theorem Definite.part {v w : Value} (h : v.Definite) (hw : w.Within v) : w.Definite :=
  fun c hc => h c (hc.trans hw)

/-! ## Equality by parts -/

section

attribute [local simp] equal equalElements equalFields

theorem equalElements_iff {xs ys : List Value} : equalElements xs ys = true ↔
    xs.length ≤ ys.length ∧
      ∀ (i : Nat) (x y : Value), xs[i]? = some x → ys[i]? = some y → x.equal y = true := by
  induction xs generalizing ys with
  | nil => simp
  | cons x xs ih =>
    cases ys with
    | nil => simp
    | cons y ys =>
      simp only [equalElements, Bool.and_eq_true, ih, List.length_cons, Nat.add_le_add_iff_right]
      constructor
      · rintro ⟨hxy, hlength, hrest⟩
        refine ⟨hlength, fun i a b ha hb => ?_⟩
        cases i with
        | zero =>
          cases ha
          cases hb
          exact hxy
        | succ i => exact hrest i a b ha hb
      · rintro ⟨hlength, hall⟩
        exact ⟨hall 0 x y rfl rfl, hlength, fun i a b ha hb => hall (i + 1) a b ha hb⟩

theorem equalFields_iff {fs gs : Table Value} : equalFields fs gs = true ↔
    ∀ p ∈ fs, ∃ y, Table.find? gs p.1 = some y ∧ p.2.equal y = true := by
  induction fs with
  | nil => simp
  | cons p fs ih =>
    obtain ⟨k, x⟩ := p
    rw [equalFields]
    cases hy : Table.find? gs k with
    | none => simp [hy]
    | some y => simp [hy, ih]

theorem equal_list {h k : Handle} {xs ys : List Value} :
    (list h xs).equal (list k ys) = true ↔
      h = k ∨ Elementwise (fun x y => x.equal y = true) xs ys := by
  simp only [equal, Bool.or_eq_true, beq_iff_eq, Bool.and_eq_true, equalElements_iff]
  refine or_congr_right ⟨fun ⟨hlength, _, hall⟩ => ⟨hlength, hall⟩, fun ⟨hlength, hall⟩ => ?_⟩
  exact ⟨hlength, hlength.le, hall⟩

theorem equal_object {h k : Handle} {fs gs : Table Value} (hf : Table.Ordered fs)
    (hg : Table.Ordered gs) : (object h fs).equal (object k gs) = true ↔
      h = k ∨ Table.Fieldwise (fun x y => x.equal y = true) fs gs := by
  simp only [equal, Bool.or_eq_true, beq_iff_eq, Bool.and_eq_true, equalFields_iff,
    ← Table.fieldwise_iff hf hg]

/-- Values without parts are equal if they are the same, apart from numbers. -/
theorem eq_or_same_of_equal {a b : Value} (ha : a.handle? = Option.none)
    (h : a.equal b = true) :
    a = b ∨ ∃ x y, a = .float x ∧ b = .float y ∧ x.same y = true := by
  cases a <;> cases b <;> simp_all [handle?]

theorem equal_self_iff (a : Value) :
    a.equal a = true ↔ a ≠ .missing ∧ ∀ x, a = .float x → x.isNaN = false := by
  cases a <;> simp [Single.same_self]

end

/-! ## The laws of equality -/

section

variable {vs : List Value}

theorem equal_symm (hvs : Coexist vs) {a b : Value} (ha : Among vs a) (hb : Among vs b)
    (h : a.equal b = true) : b.equal a = true := by
  induction a using induction generalizing b with
  | scalar v hv =>
    obtain rfl | ⟨x, y, rfl, rfl, hxy⟩ := eq_or_same_of_equal hv h
    · exact h
    · simpa only [equal, Single.same_comm y x] using hxy
  | list k xs ih =>
    cases b with
    | list k' ys =>
      obtain hk | hparts := equal_list.1 h
      · exact equal_list.2 (.inl hk.symm)
      · refine equal_list.2 (.inr (hparts.swap fun x hx y hy hxy => ?_))
        exact ih x hx (ha.element hx) (hb.element hy) hxy
    | _ => simp [equal] at h
  | object k fs ih =>
    cases b with
    | object k' gs =>
      have hf : Table.Ordered fs := hvs.ordered k fs ha
      have hg : Table.Ordered gs := hvs.ordered k' gs hb
      obtain hk | hparts := (equal_object hf hg).1 h
      · exact (equal_object hg hf).2 (.inl hk.symm)
      · refine (equal_object hg hf).2 (.inr (hparts.swap fun p hp q hq hpq => ?_))
        exact ih p hp (ha.field hp) (hb.field hq) hpq
    | _ => simp [equal] at h

/-- Containers that are equal are the same one, or both hold equal parts. -/
theorem equal_trans (hvs : Coexist vs) {a b c : Value} (ha : Among vs a) (hb : Among vs b)
    (hc : Among vs c) (hab : a.equal b = true) (hbc : b.equal c = true) : a.equal c = true := by
  induction a using induction generalizing b c with
  | scalar v hv =>
    obtain rfl | ⟨x, y, rfl, rfl, hxy⟩ := eq_or_same_of_equal hv hab
    · exact hbc
    · obtain rfl | ⟨y', z, hy, rfl, hyz⟩ := eq_or_same_of_equal rfl hbc
      · exact hab
      · cases hy
        simpa only [equal] using Single.same_trans hxy hyz
  | list k xs ih =>
    cases b with
    | list k' ys =>
      obtain rfl | hparts := equal_list.1 hab
      · rwa [hvs.same _ _ k ha hb rfl rfl]
      · cases c with
        | list k'' zs =>
          obtain rfl | hparts' := equal_list.1 hbc
          · rwa [← hvs.same _ _ k' hb hc rfl rfl]
          · refine equal_list.2 (.inr (hparts.chain hparts' fun x hx y hy z hz hxy hyz => ?_))
            exact ih x hx (ha.element hx) (hb.element hy) (hc.element hz) hxy hyz
        | _ => simp [equal] at hbc
    | _ => simp [equal] at hab
  | object k fs ih =>
    cases b with
    | object k' gs =>
      have hf : Table.Ordered fs := hvs.ordered k fs ha
      have hg : Table.Ordered gs := hvs.ordered k' gs hb
      obtain rfl | hparts := (equal_object hf hg).1 hab
      · rwa [hvs.same _ _ k ha hb rfl rfl]
      · cases c with
        | object k'' es =>
          have he : Table.Ordered es := hvs.ordered k'' es hc
          obtain rfl | hparts' := (equal_object hg he).1 hbc
          · rwa [← hvs.same _ _ k' hb hc rfl rfl]
          · refine (equal_object hf he).2
              (.inr (hparts.chain hparts' fun p hp q hq r hr hpq hqr => ?_))
            exact ih p hp (ha.field hp) (hb.field hq) (hc.field hr) hpq hqr
        | _ => simp [equal] at hbc
    | _ => simp [equal] at hab

/-! ## Equality and the comparison by parts -/

theorem alike_self {a : Value} (ha : a.Definite) : a.Alike a := by
  induction a using induction with
  | scalar v hv =>
    cases v with
    | string s => exact .string s
    | integer n => exact .integer n
    | float x =>
      refine .float ?_
      rw [Single.same_self, (ha _ .here).2 x rfl]
      rfl
    | bool b => exact .bool b
    | none => exact .none
    | missing => exact absurd rfl (ha _ .here).1
    | list | object => cases hv
  | list k xs ih =>
    refine .list rfl fun i x y hx hy => ?_
    cases hx.symm.trans hy
    have hmem := List.mem_of_getElem? hx
    exact ih x hmem (ha.part (.element hmem .here))
  | object k fs ih =>
    refine .object (fun _ => rfl) fun key x y hx hy => ?_
    cases hx.symm.trans hy
    have hmem := Table.mem_of_find? hx
    exact ih _ hmem (ha.part (.field hmem .here))

theorem alike_of_equal (hvs : Coexist vs) {a b : Value} (ha : Among vs a) (hb : Among vs b)
    (hdefinite : a.Definite) (h : a.equal b = true) : a.Alike b := by
  induction a using induction generalizing b with
  | scalar v hv =>
    obtain rfl | ⟨x, y, rfl, rfl, hxy⟩ := eq_or_same_of_equal hv h
    · exact alike_self hdefinite
    · exact .float hxy
  | list k xs ih =>
    cases b with
    | list k' ys =>
      obtain rfl | ⟨hlength, hparts⟩ := equal_list.1 h
      · rw [← hvs.same _ _ k ha hb rfl rfl]
        exact alike_self hdefinite
      · refine .list hlength fun i x y hx hy => ?_
        have hmem := List.mem_of_getElem? hx
        exact ih x hmem (ha.element hmem) (hb.element (List.mem_of_getElem? hy))
          (hdefinite.part (.element hmem .here)) (hparts i x y hx hy)
    | _ => simp [equal] at h
  | object k fs ih =>
    cases b with
    | object k' gs =>
      obtain rfl | ⟨hkeys, hparts⟩ :=
        (equal_object (hvs.ordered k fs ha) (hvs.ordered k' gs hb)).1 h
      · rw [← hvs.same _ _ k ha hb rfl rfl]
        exact alike_self hdefinite
      · refine .object hkeys fun key x y hx hy => ?_
        have hmem := Table.mem_of_find? hx
        exact ih _ hmem (ha.field hmem) (hb.field (Table.mem_of_find? hy))
          (hdefinite.part (.field hmem .here)) (hparts key x y hx hy)
    | _ => simp [equal] at h

theorem Alike.equal (hvs : Coexist vs) {a b : Value} (h : a.Alike b) (ha : Among vs a)
    (hb : Among vs b) : a.equal b = true := by
  induction h with
  | string | integer | bool | none => simp [Value.equal]
  | float h => simpa [Value.equal] using h
  | list hlength _ ih =>
    refine equal_list.2 (.inr ⟨hlength, fun i x y hx hy => ?_⟩)
    exact ih i x y hx hy (ha.element (List.mem_of_getElem? hx)) (hb.element (List.mem_of_getElem? hy))
  | object hkeys _ ih =>
    refine (equal_object (hvs.ordered _ _ ha) (hvs.ordered _ _ hb)).2 (.inr ⟨hkeys, ?_⟩)
    intro key x y hx hy
    exact ih key x y hx hy (ha.field (Table.mem_of_find? hx)) (hb.field (Table.mem_of_find? hy))

end

/-- Equality of values that stand side by side is symmetric and transitive; only a missing value and a
NaN differ from themselves. Without those it is the comparison by parts. -/
theorem equality_laws (a b c : Value) (h : Coexist [a, b, c]) :
    (a.equal a = true ↔ a ≠ .missing ∧ ∀ x, a = .float x → x.isNaN = false) ∧
    a.equal b = b.equal a ∧
    (a.equal b = true → b.equal c = true → a.equal c = true) ∧
    (a.Definite → (a.equal b = true ↔ a.Alike b)) := by
  have ha : Among [a, b, c] a := .of_mem (by simp)
  have hb : Among [a, b, c] b := .of_mem (by simp)
  have hc : Among [a, b, c] c := .of_mem (by simp)
  refine ⟨equal_self_iff a, ?_, equal_trans h ha hb hc, fun hdefinite => ?_⟩
  · exact Bool.eq_iff_iff.2 ⟨equal_symm h ha hb, equal_symm h hb ha⟩
  · exact ⟨alike_of_equal h ha hb hdefinite, fun halike => halike.equal h ha hb⟩

/-! ## Values of one ledger -/

/-- What fits one ledger stands side by side. -/
theorem coexist_of_fits {l : Ledger} {vs : List Value} (hvs : ∀ v ∈ vs, v.Fits l)
    (hordered : ∀ v ∈ l, ∀ h fs, v = object h fs → Table.Ordered fs) : Coexist vs where
  same := by
    rintro c d k ⟨v, hv, hc⟩ ⟨w, hw, hd⟩ hck hdk
    have hfound := hvs v hv c k hc hck
    exact Option.some.inj (hfound.symm.trans (hvs w hw d k hd hdk))
  ordered := by
    rintro k fs ⟨v, hv, hc⟩
    exact hordered _ (List.mem_of_getElem? (hvs v hv _ k hc rfl)) k fs rfl

def notANumber : Single := ⟨0x7fc00000⟩

def zero (negative : Bool) : Single := ⟨if negative then 0x80000000 else 0⟩

/-- A list that differs from its copies. -/
def listOfNaN : Value := .list 0 [.float notANumber]

/-- Objects that hold that list and a zero. -/
def holding (h : Handle) (negative : Bool) : Value :=
  .object h [("list", listOfNaN), ("zero", .float (zero negative))]

/-- A list that only holds a zero. -/
def listOfZero (h : Handle) (negative : Bool) : Value := .list h [.float (zero negative)]

theorem holding_fits {l : Ledger} (hl : [listOfNaN] <+: l) (negative : Bool) :
    (holding l.length negative).Fits (l ++ [holding l.length negative]) := by
  have hlist : listOfNaN.Fits [listOfNaN] := fits_list (l := []) fun v hv => by
    cases List.mem_singleton.1 hv
    exact fits_scalar rfl
  refine fits_object fun p hp => ?_
  simp only [List.mem_cons, List.not_mem_nil, or_false] at hp
  obtain rfl | rfl := hp
  · exact hlist.mono hl
  · exact fits_scalar rfl

theorem listOfZero_fits (l : Ledger) (negative : Bool) :
    (listOfZero l.length negative).Fits (l ++ [listOfZero l.length negative]) :=
  fits_list fun v hv => by
    cases List.mem_singleton.1 hv
    exact fits_scalar rfl

theorem holding_coexist : Coexist [holding 1 false, holding 2 true, holding 3 false] := by
  have h1 := holding_fits (l := [listOfNaN]) (by simp) false
  have h2 := holding_fits (l := [listOfNaN, holding 1 false]) (by simp) true
  have h3 := holding_fits (l := [listOfNaN, holding 1 false, holding 2 true]) (by simp) false
  have hlast : [listOfNaN, holding 1 false, holding 2 true] <+:
      [listOfNaN, holding 1 false, holding 2 true, holding 3 false] := by simp
  refine coexist_of_fits (l := [listOfNaN, holding 1 false, holding 2 true, holding 3 false]) ?_ ?_
  · simp only [List.forall_mem_cons]
    exact ⟨(h1.mono (by simp)).mono hlast, h2.mono hlast, h3, List.forall_mem_nil _⟩
  · have hfields : ∀ negative, Table.Ordered
        [("list", listOfNaN), ("zero", .float (zero negative))] := fun negative => by
      change ["list", "zero"].Pairwise (· < ·)
      decide
    simp only [List.forall_mem_cons]
    refine ⟨?_, ?_, ?_, ?_, List.forall_mem_nil _⟩ <;> rintro h fs ⟨⟩ <;> exact hfields _

theorem listOfZero_coexist : Coexist [listOfZero 0 false, listOfZero 1 true, listOfZero 2 false] := by
  have h0 := listOfZero_fits [] false
  have h1 := listOfZero_fits [listOfZero 0 false] true
  have h2 := listOfZero_fits [listOfZero 0 false, listOfZero 1 true] false
  have hlast : [listOfZero 0 false, listOfZero 1 true] <+: [listOfZero 0 false, listOfZero 1 true, listOfZero 2 false] := by simp
  refine coexist_of_fits (l := [listOfZero 0 false, listOfZero 1 true, listOfZero 2 false]) ?_ ?_
  · simp only [List.forall_mem_cons]
    exact ⟨(h0.mono (by simp)).mono hlast, h1.mono hlast, h2, List.forall_mem_nil _⟩
  · simp only [List.forall_mem_cons]
    refine ⟨?_, ?_, ?_, List.forall_mem_nil _⟩ <;> rintro h fs ⟨⟩

theorem listOfZero_definite (h : Handle) (negative : Bool) : (listOfZero h negative).Definite := by
  intro c hc
  cases hc with
  | here => exact ⟨nofun, nofun⟩
  | element hv hc =>
    cases List.mem_singleton.1 hv
    cases hc
    refine ⟨nofun, fun x hx => ?_⟩
    cases hx
    cases negative <;> decide

/-- An object equals another one that holds the same list, although a copy of the list differs from
it. -/
theorem equality_laws_shared :
    Coexist [holding 1 false, holding 2 true, holding 3 false] ∧
    (holding 1 false).equal (holding 3 false) = true ∧
    (holding 2 true).equal (holding 1 false) = true ∧
    (list 4 [.float notANumber]).equal listOfNaN = false ∧
    Coexist [listOfZero 0 false, listOfZero 1 true, listOfZero 2 false] ∧ (listOfZero 0 false).Definite ∧
    (listOfZero 0 false).Alike (listOfZero 1 true) := by
  obtain ⟨-, hsymm, htrans, -⟩ := equality_laws _ _ _ holding_coexist
  obtain ⟨-, -, -, halike⟩ := equality_laws _ _ _ listOfZero_coexist
  have h12 : (holding 1 false).equal (holding 2 true) = true := by decide
  have h23 : (holding 2 true).equal (holding 3 false) = true := by decide
  exact ⟨holding_coexist, htrans h12 h23, hsymm.symm.trans h12, by decide, listOfZero_coexist,
    listOfZero_definite 0 false, (halike (listOfZero_definite 0 false)).1 (by decide)⟩

end Value

end Arbor
