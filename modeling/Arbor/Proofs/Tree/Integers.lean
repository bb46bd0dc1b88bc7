import Arbor.Proofs.Tree.Grammar
import Arbor.Tree.Words

/-!
Integers are read exactly.

Every way to deliver a number has its own check: words are compared before they are narrowed, an
unsigned one before it is taken for a signed one, a double is tested for a fraction but not for its
size. `Fits convert` is all that is needed of the machine, and with it nothing wraps or is rounded:
a number is read as the integer that it is, and as nothing else (`integers_exact`).
-/

set_option autoImplicit false

namespace Arbor

/-- The machine converts whole doubles that fit into 64 bits to themselves, and takes none of the
others into 32 bits. -/
structure Double.Fits (convert : Double → Int64) : Prop where
  same {x : Double} {n : Int} : (Numeral.double x).IsInteger n → Decode.inRange64 n →
    (convert x).toInt = n
  outside {x : Double} : x.isWhole → (∀ n, (Numeral.double x).IsInteger n → ¬ Decode.inRange64 n) →
    ¬ Decode.inRange32 (convert x).toInt

namespace Decode

variable {place : Place}

/-! ## Words -/

theorem inRange32_iff {v : Int} : inRange32 v = true ↔ -2147483648 ≤ v ∧ v < 2147483648 := by
  simp [inRange32]

theorem inRange64_iff {v : Int} :
    inRange64 v = true ↔ -9223372036854775808 ≤ v ∧ v < 9223372036854775808 := by
  simp [inRange64]

theorem inRange64_toInt (v : Int64) : inRange64 v.toInt = true :=
  inRange64_iff.2 ⟨v.le_toInt, v.toInt_lt⟩

theorem toInt_ofInt {v : Int} (h : inRange64 v = true) : (Int64.ofInt v).toInt = v :=
  have ⟨hlow, hhigh⟩ := inRange64_iff.1 h
  Int64.toInt_ofInt_of_le hlow hhigh

theorem toInt_toInt64 {n : UInt64} (h : n.toNat < 9223372036854775808) :
    n.toInt64.toInt = n.toNat := by
  have hmsb : 2 * n.toBitVec.toNat < 2 ^ 64 := by
    have : n.toBitVec.toNat = n.toNat := rfl
    omega
  exact BitVec.toInt_eq_toNat_of_lt hmsb

theorem toInt_toInt32 {v : Int64} (h : inRange32 v.toInt = true) : v.toInt32.toInt = v.toInt := by
  obtain ⟨hlow, hhigh⟩ := inRange32_iff.1 h
  rw [Int64.toInt_toInt32]
  exact Int.bmod_eq_of_le (by omega) (by omega)

theorem narrow_eq_checkRange (place : Place) (v : Int64) :
    narrow place v = checkRange place v.toInt := by
  have hlow : v < -2147483648 ↔ v.toInt < -2147483648 := Int64.lt_iff_toInt_lt
  have hhigh : 2147483647 < v ↔ 2147483647 < v.toInt := Int64.lt_iff_toInt_lt
  unfold narrow checkRange
  by_cases h : inRange32 v.toInt = true
  · have hv : v.toInt32 = Int32.ofInt v.toInt := by
      obtain ⟨hl, hh⟩ := inRange32_iff.1 h
      exact Int32.toInt_inj.1 ((toInt_toInt32 h).trans (Int32.toInt_ofInt_of_le hl hh).symm)
    rw [if_pos h, if_neg, hv]
    rw [inRange32_iff] at h
    simp only [Bool.or_eq_true, decide_eq_true_eq, hlow, hhigh]
    omega
  · rw [if_neg h, if_pos]
    rw [inRange32_iff] at h
    simp only [Bool.or_eq_true, decide_eq_true_eq, hlow, hhigh]
    omega

theorem narrow_eq_ok_iff {v : Int64} {n : Int32} : narrow place v = .ok n ↔ n.toInt = v.toInt := by
  rw [narrow_eq_checkRange, checkRange_eq_ok_iff]

theorem word?_eq_some_iff {s : String} {v : Int64} :
    word? s = some v ↔ (Numeral.literal s).IsInteger v.toInt := by
  rw [← integerLiteral?_eq_some_iff, word?, Option.bind_eq_some_iff]
  constructor
  · rintro ⟨n, hn, hv⟩
    split at hv
    · next hrange =>
      cases hv
      rw [toInt_ofInt hrange]
      exact hn
    · cases hv
  · intro h
    exact ⟨v.toInt, h, by rw [if_pos (inRange64_toInt v), Int64.ofInt_toInt]⟩

/-! ## Doubles -/

variable {x : Double}

theorem isInteger_iff_size {negative : Bool} {m : Nat} {p n : Int}
    (hx : x.datum = .finite negative m p) : (Numeral.double x).IsInteger n ↔
      ∃ size : Nat, (size : ℚ) = m * 2 ^ p ∧ n = if negative then -(size : Int) else size := by
  constructor
  · intro h
    cases h with
    | double hx' hn =>
      rw [hx] at hx'
      cases hx'
      have hnonneg : (0 : ℚ) ≤ m * 2 ^ p := by positivity
      cases negative with
      | false =>
        have hn' : (n : ℚ) = m * 2 ^ p := by simpa using hn
        have hle : 0 ≤ n := by exact_mod_cast hn' ▸ hnonneg
        obtain ⟨size, rfl⟩ := Int.eq_ofNat_of_zero_le hle
        exact ⟨size, by exact_mod_cast hn', rfl⟩
      | true =>
        have hn' : ((-n : Int) : ℚ) = m * 2 ^ p := by
          push_cast
          rw [hn]
          simp
        have hle : 0 ≤ -n := by exact_mod_cast hn' ▸ hnonneg
        obtain ⟨size, hsize⟩ := Int.eq_ofNat_of_zero_le hle
        refine ⟨size, ?_, ?_⟩
        · rw [← hn', hsize]
          rfl
        · rw [if_pos rfl]
          omega
  · rintro ⟨size, hsize, rfl⟩
    refine .double hx ?_
    rw [← hsize]
    cases negative <;> simp

theorem size_eq_some_iff {m size : Nat} {p : Int} :
    (if hasNoFraction m p then some (withoutFraction m p) else none) = some size ↔
      (size : ℚ) = m * 2 ^ p := by
  rw [← whole_size]
  unfold hasNoFraction withoutFraction
  by_cases hp : 0 ≤ p
  · simp [hp]
  · simp [hp]

theorem isInteger_finite_iff {negative : Bool} {m : Nat} {p n : Int}
    (hx : x.datum = .finite negative m p) : (Numeral.double x).IsInteger n ↔ hasNoFraction m p ∧
      n = if negative then -(withoutFraction m p : Int) else withoutFraction m p := by
  rw [isInteger_iff_size hx]
  simp only [← size_eq_some_iff]
  split
  · next h => simp [h]
  · next h => simp [h]

theorem finite_of_isInteger {n : Int} (h : (Numeral.double x).IsInteger n) :
    ∃ negative m p, x.datum = .finite negative m p := by
  cases h with
  | double hx _ => exact ⟨_, _, _, hx⟩

theorem isWhole_of_isInteger {n : Int} (h : (Numeral.double x).IsInteger n) : x.isWhole = true := by
  obtain ⟨negative, m, p, hx⟩ := finite_of_isInteger h
  rw [Double.isWhole, hx]
  exact ((isInteger_finite_iff hx).1 h).1

theorem wholeDouble?_eq (x : Double) :
    wholeDouble? x = if x.isWhole then some x.toWord.toInt else none := by
  unfold wholeDouble? Double.isWhole Double.toWord
  cases x.datum with
  | nan => rfl
  | infinite negative => rfl
  | finite negative m p =>
    have hword (n : Int) : (if inRange64 n then Int64.ofInt n else Int64.minValue).toInt
        = if inRange64 n then n else -9223372036854775808 := by
      split
      · next h => exact toInt_ofInt h
      · rfl
    dsimp only
    rw [hword]
    by_cases hp : 0 ≤ p
    · simp [hasNoFraction, withoutFraction, hp]
    · by_cases hm : m % 2 ^ (-p).toNat = 0
      · simp [hasNoFraction, withoutFraction, hp, hm]
      · simp [hasNoFraction, hp, hm]

/-- A machine on which everything that does not fit becomes the least word. -/
theorem toWord_fits : Double.Fits Double.toWord where
  same := by
    intro x n hn hrange
    obtain ⟨negative, m, p, hx⟩ := finite_of_isInteger hn
    have hvalue := ((isInteger_finite_iff hx).1 hn).2
    rw [Double.toWord, hx]
    dsimp only
    rw [← hvalue, if_pos hrange]
    exact toInt_ofInt hrange
  outside := by
    intro x hx hno
    have hleast : x.toWord = Int64.minValue := by
      unfold Double.toWord
      unfold Double.isWhole at hx
      split
      · next negative m p hdatum =>
        rw [hdatum] at hx
        exact if_neg (hno _ ((isInteger_finite_iff hdatum).2 ⟨hx, rfl⟩))
      · rfl
    rw [hleast]
    decide

/-! ## Numbers as they are delivered -/

variable {convert : Double → Int64} {raw : Raw} {n : Int32}

theorem isInteger_integer_iff {v k : Int} : (Numeral.integer v).IsInteger k ↔ k = v := by
  constructor
  · rintro ⟨⟩
    rfl
  · rintro rfl
    exact .integer k

theorem word_literal_eq (s : String) : word convert place (.literal s) =
    (word? s).elim (fault place (.badInteger s)) fun v => checkRange place v.toInt := by
  cases hs : word? s with
  | none =>
    rw [word, hs]
    rfl
  | some v =>
    rw [word, hs]
    exact narrow_eq_checkRange place v

theorem word_literal_iff {s : String} :
    word convert place (.literal s) = .ok n ↔ (Numeral.literal s).IsInteger n.toInt := by
  rw [word_literal_eq]
  constructor
  · intro h
    cases hv : word? s with
    | none =>
      rw [hv] at h
      exact absurd h fault_ne_ok
    | some v =>
      rw [hv, Option.elim_some, checkRange_eq_ok_iff] at h
      rw [h]
      exact word?_eq_some_iff.1 hv
  · intro h
    have hrange := inRange64_of_inRange32 (inRange32_toInt n)
    rw [← toInt_ofInt hrange, ← word?_eq_some_iff] at h
    rw [h]
    exact checkRange_eq_ok_iff.2 (toInt_ofInt hrange).symm

/-- Comparing an unsigned word before it is taken for a signed one is comparing it after. -/
theorem word_uint64_eq (v : UInt64) : word convert place (.uint64 v) = checkRange place v.toNat := by
  have hcompare : 2147483647 < v ↔ 2147483647 < v.toNat := UInt64.lt_iff_toNat_lt
  change (if 2147483647 < v then _ else narrow place v.toInt64) = _
  split
  · next h =>
    rw [hcompare] at h
    rw [checkRange, if_neg]
    rw [inRange32_iff]
    omega
  · next h =>
    rw [hcompare] at h
    rw [narrow_eq_checkRange, toInt_toInt64 (by omega)]

theorem word_float_eq (x : Double) : word convert place (.float x) =
    if x.isWhole then checkRange place (convert x).toInt else fault place (.badInteger x.text) := by
  rw [← narrow_eq_checkRange]
  rfl

theorem word_float_iff (hfits : Double.Fits convert) :
    word convert place (.float x) = .ok n ↔ (Numeral.double x).IsInteger n.toInt := by
  rw [word_float_eq]
  constructor
  · intro h
    split at h
    · next hwhole =>
      rw [checkRange_eq_ok_iff] at h
      obtain ⟨k, hk, hrange⟩ : ∃ k, (Numeral.double x).IsInteger k ∧ inRange64 k = true := by
        by_contra hno
        refine hfits.outside hwhole (fun k hk hrange => hno ⟨k, hk, hrange⟩) ?_
        rw [← h]
        exact inRange32_toInt n
      rw [h, hfits.same hk hrange]
      exact hk
    · exact absurd h fault_ne_ok
  · intro h
    have hrange := inRange64_of_inRange32 (inRange32_toInt n)
    rw [if_pos (isWhole_of_isInteger h), checkRange_eq_ok_iff, hfits.same h hrange]

/-- A number is read as the integer that it is. -/
theorem word_eq_ok_iff (hfits : Double.Fits convert) :
    word convert place raw = .ok n ↔ raw.numeral.IsInteger n.toInt := by
  cases raw with
  | literal s => exact word_literal_iff
  | int v | int64 v => exact narrow_eq_ok_iff.trans isInteger_integer_iff.symm
  | uint64 v =>
    rw [word_uint64_eq, checkRange_eq_ok_iff]
    exact isInteger_integer_iff.symm
  | float x => exact word_float_iff hfits

theorem word_error {v : Violation} (h : word convert place raw = .error v) : v.place = place := by
  have hrange {k : Int} (hk : checkRange place k = .error v) : v.place = place := by
    unfold checkRange at hk
    split at hk
    · cases hk
    · cases hk
      rfl
  cases raw with
  | literal s =>
    rw [word_literal_eq] at h
    cases hs : word? s with
    | none =>
      rw [hs] at h
      cases h
      rfl
    | some k =>
      rw [hs] at h
      exact hrange h
  | int k | int64 k => exact hrange ((narrow_eq_checkRange place k).symm.trans h)
  | uint64 k => exact hrange ((word_uint64_eq k).symm.trans h)
  | float x =>
    rw [word_float_eq] at h
    split at h
    · exact hrange h
    · cases h
      rfl

/-- Reading integers of any size is reading words, on a machine on which everything that does not fit
becomes the least word. -/
theorem integer_eq_word (place : Place) (raw : Raw) :
    integer place (some (.number raw.numeral)) = word Double.toWord place raw := by
  cases raw with
  | literal s =>
    rw [Raw.numeral, integer, word_literal_eq, word?]
    cases integerLiteral? s with
    | none => rfl
    | some k =>
      rw [Option.bind_some]
      by_cases hrange : inRange64 k = true
      · simp only [hrange, if_true, Option.elim_some, toInt_ofInt]
      · simp only [hrange, if_false, Bool.false_eq_true, Option.elim_none]
  | int v => exact (narrow_eq_checkRange place v).symm
  | int64 v => exact (narrow_eq_checkRange place v).symm
  | uint64 v => exact (word_uint64_eq v).symm
  | float x =>
    rw [Raw.numeral, integer, word_float_eq, wholeDouble?_eq]
    by_cases hwhole : x.isWhole = true
    · simp only [hwhole, if_true]
    · simp only [hwhole, if_false, Bool.false_eq_true]

end Decode

/-- On a machine that fits, a number is read as a 32-bit integer exactly if it is that integer, and
every other number is faulted where it stands: nothing wraps, is cut off or is rounded. This is how
the value of an integer literal is read. -/
theorem integers_exact (convert : Double → Int64) (hfits : Double.Fits convert) (raw : Raw)
    (place : Place) :
    (∀ n, Decode.word convert place raw = .ok n ↔ raw.numeral.IsInteger n.toInt) ∧
    ((∃ flaw, Decode.word convert place raw = .error ⟨place, flaw⟩) ↔
      ∀ v, raw.numeral.IsInteger v → v < -2 ^ 31 ∨ 2 ^ 31 - 1 < v) ∧
    Double.Fits Double.toWord ∧
    ∀ fields, Document.HasType fields .integerLiteral →
      Table.find? fields "value" = some (.number raw.numeral) →
      Decode.node place (.object fields) =
        (Decode.word Double.toWord (.field "value" :: place) raw).map (.expr ∘ .integer) := by
  refine ⟨fun n => Decode.word_eq_ok_iff hfits, ?_, Decode.toWord_fits, ?_⟩
  · constructor
    · rintro ⟨flaw, h⟩ v hv
      by_contra hrange
      have hint : (Int32.ofInt v).toInt = v := Int32.toInt_ofInt_of_le (by omega) (by omega)
      rw [(Decode.word_eq_ok_iff hfits).2 (hint.symm ▸ hv)] at h
      cases h
    · intro h
      cases hword : Decode.word convert place raw with
      | error v =>
        obtain ⟨at', flaw⟩ := v
        cases Decode.word_error hword
        exact ⟨flaw, rfl⟩
      | ok n =>
        have hlow := n.le_toInt
        have hhigh := n.toInt_lt
        have := h n.toInt ((Decode.word_eq_ok_iff hfits).1 hword)
        omega
  · intro fields htype hvalue
    simp only [Decode.node, htype.eq, NodeType.ofText?_text, hvalue, Decode.integer_eq_word]
    cases Decode.word Double.toWord (.field "value" :: place) raw <;> rfl

/-- The greatest 32-bit integer as a double is read, and `2 ^ 63` as a double is not. -/
theorem integers_exact_greatest :
    Double.Fits Double.toWord ∧
    (Numeral.double ⟨0x41DFFFFFFFC00000⟩).IsInteger 2147483647 ∧
    Decode.word Double.toWord [] (.float ⟨0x43E0000000000000⟩) =
      .error ⟨[], .overflow (-9223372036854775808)⟩ ∧
    ∀ v, (Numeral.double ⟨0x43E0000000000000⟩).IsInteger v → v < -2 ^ 31 ∨ 2 ^ 31 - 1 < v := by
  have hread : Decode.word Double.toWord [] (.float ⟨0x41DFFFFFFFC00000⟩) = .ok 2147483647 := rfl
  have hrefused : Decode.word Double.toWord [] (.float ⟨0x43E0000000000000⟩) =
      .error ⟨[], .overflow (-9223372036854775808)⟩ := rfl
  refine ⟨Decode.toWord_fits, ?_, hrefused, ?_⟩
  · exact ((integers_exact Double.toWord Decode.toWord_fits (.float _) []).1 2147483647).1 hread
  · exact (integers_exact Double.toWord Decode.toWord_fits (.float _) []).2.1.1 ⟨_, hrefused⟩

end Arbor
