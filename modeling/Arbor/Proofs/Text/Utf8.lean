import Arbor.Text.Utf8
import Mathlib.Data.List.Basic

/-!
Text survives being written as bytes.

A character is written as one to four bytes, and it is the first character of all bytes that start
with them (`firstChar?_encode`); so decoding gives every text back (`decodeLossy_bytes`). A carriage
return after other bytes is read as one, since it completes no sequence
(`decodeLossy_carriageReturn`).
-/

set_option autoImplicit false

namespace Arbor.Text

/-! ## The bytes of a text -/

theorem toList_loop (bs : ByteArray) (i : Nat) (r : List UInt8) :
    ByteArray.toList.loop bs i r = r.reverse ++ bs.data.toList.drop i := by
  have hsize : bs.data.toList.length = bs.size := rfl
  induction i, r using ByteArray.toList.loop.induct bs with
  | case1 i r hi ih =>
    have hget : bs.get! i = bs.data.toList.get ⟨i, hi⟩ := by
      rw [ByteArray.get!, getElem!_pos bs.data i hi]
      rfl
    rw [ByteArray.toList.loop, if_pos hi, ih, List.reverse_cons, hget,
      List.drop_eq_getElem_cons (i := i) hi, List.append_assoc]
    rfl
  | case2 i r hi =>
    have hlast : bs.data.toList.length ≤ i := by omega
    rw [ByteArray.toList.loop, if_neg hi, List.drop_eq_nil_of_le hlast, List.append_nil]

theorem bytes_eq (s : String) : bytes s = s.toList.flatMap String.utf8EncodeChar := by
  have hdata : s.toUTF8.data.toList = s.toList.flatMap String.utf8EncodeChar := by
    conv_lhs => rw [← String.ofList_toList (s := s)]
    rw [String.toUTF8, String.toByteArray_ofList, List.utf8Encode, List.data_toByteArray]
  rw [bytes, ByteArray.toList, toList_loop, hdata]
  rfl

/-! ## Reading it back -/

theorem toNat_ofNat {n : Nat} (h : n < 256) : (UInt8.ofNat n).toNat = n := by
  rw [UInt8.toNat_ofNat', Nat.mod_eq_of_lt h]

theorem continuation?_ofNat {n : Nat} (h : n < 64) :
    continuation? (UInt8.ofNat (n + 128)) = some n := by
  have hn := toNat_ofNat (n := n + 128) (by omega)
  have hrange : 0x80 ≤ UInt8.ofNat (n + 128) ∧ UInt8.ofNat (n + 128) ≤ 0xBF := by
    rw [UInt8.le_iff_toNat_le, UInt8.le_iff_toNat_le, hn]
    change 128 ≤ n + 128 ∧ n + 128 ≤ 191
    omega
  rw [continuation?, if_pos hrange, hn, Nat.add_sub_cancel]

theorem toNat_valid (c : Char) :
    c.toNat < 0x110000 ∧ ¬ (0xD800 ≤ c.toNat ∧ c.toNat ≤ 0xDFFF) := by
  have hvalid : c.toNat < 0xD800 ∨ 0xDFFF < c.toNat ∧ c.toNat < 0x110000 := c.valid
  omega

/-- The payloads of continuation bytes, six bits each, follow the one of the lead byte. -/
theorem sequence?_payloads (ns : List Nat) (h : ∀ n ∈ ns, n < 64) {lead lo hi : Nat} {c : Char}
    (hc : ns.foldl (fun acc n => acc * 64 + n) lead = c.toNat) (hlo : lo ≤ c.toNat)
    (hhi : c.toNat ≤ hi) :
    sequence? lead (ns.map fun n => UInt8.ofNat (n + 128)) lo hi = some c := by
  have hfold : (ns.map fun n => UInt8.ofNat (n + 128)).foldlM
      (fun acc b => do return acc * 64 + (← continuation? b)) lead = some c.toNat := by
    clear hlo hhi
    induction ns generalizing lead with
    | nil => exact congrArg some hc
    | cons n ns ih =>
      obtain ⟨hn, hns⟩ := List.forall_mem_cons.1 h
      rw [List.map_cons, List.foldlM_cons, continuation?_ofNat hn]
      exact ih hns hc
  rw [sequence?, hfold]
  change (if _ then _ else _) = _
  rw [if_pos ⟨hlo, hhi, (toNat_valid c).2⟩, Char.ofNat_toNat]

/-! One reading for each number of bytes. -/

theorem firstChar?_one {n : Nat} (h : n < 0x80) (rest : List UInt8) :
    firstChar? (UInt8.ofNat n :: rest) = some (Char.ofNat n, 1) := by
  unfold firstChar?
  dsimp only
  rw [toNat_ofNat (by omega), if_pos h]

theorem firstChar?_two {n : Nat} (h : 2 ≤ n ∧ n < 32) (b : UInt8) (rest : List UInt8) :
    firstChar? (UInt8.ofNat (n + 0xC0) :: b :: rest)
      = (sequence? n [b] 0x80 0x7FF).map (·, 2) := by
  unfold firstChar?
  dsimp only
  rw [toNat_ofNat (by omega), if_neg (by omega), if_pos (by omega), Nat.add_sub_cancel]

theorem firstChar?_three {n : Nat} (h : n < 16) (b c : UInt8) (rest : List UInt8) :
    firstChar? (UInt8.ofNat (n + 0xE0) :: b :: c :: rest)
      = (sequence? n [b, c] 0x800 0xFFFF).map (·, 3) := by
  unfold firstChar?
  dsimp only
  rw [toNat_ofNat (by omega), if_neg (by omega), if_neg (by omega), if_pos (by omega),
    Nat.add_sub_cancel]

theorem firstChar?_four {n : Nat} (h : n < 5) (b c d : UInt8) (rest : List UInt8) :
    firstChar? (UInt8.ofNat (n + 0xF0) :: b :: c :: d :: rest)
      = (sequence? n [b, c, d] 0x10000 0x10FFFF).map (·, 4) := by
  unfold firstChar?
  dsimp only
  rw [toNat_ofNat (by omega), if_neg (by omega), if_neg (by omega), if_neg (by omega),
    if_pos (by omega), Nat.add_sub_cancel]

/-- A character is the first one of all bytes that start with its own. -/
theorem firstChar?_encode (c : Char) (rest : List UInt8) :
    firstChar? (String.utf8EncodeChar c ++ rest) = some (c, (String.utf8EncodeChar c).length) := by
  have hmax := toNat_valid c
  have hval : c.val.toNat = c.toNat := rfl
  unfold String.utf8EncodeChar
  dsimp only
  rw [hval]
  generalize hv : c.toNat = v at hmax
  split
  · next h1 =>
    rw [List.singleton_append, firstChar?_one (by omega), ← hv, Char.ofNat_toNat]
    rfl
  · split
    · next h1 h2 =>
      have hseq : sequence? (v / 64 % 32) [UInt8.ofNat (v % 64 + 128)] 0x80 0x7FF = some c :=
        sequence?_payloads [v % 64] (by simp; omega) (by simp; omega) (by omega) (by omega)
      exact (firstChar?_two (by omega) _ _).trans (congrArg (Option.map (·, 2)) hseq)
    · split
      · next h1 h2 h3 =>
        have hseq : sequence? (v / 4096 % 16) [UInt8.ofNat (v / 64 % 64 + 128),
            UInt8.ofNat (v % 64 + 128)] 0x800 0xFFFF = some c :=
          sequence?_payloads [v / 64 % 64, v % 64] (by simp; omega) (by simp; omega) (by omega)
            (by omega)
        exact (firstChar?_three (by omega) _ _ _).trans (congrArg (Option.map (·, 3)) hseq)
      · next h1 h2 h3 =>
        have hseq : sequence? (v / 262144 % 8) [UInt8.ofNat (v / 4096 % 64 + 128),
            UInt8.ofNat (v / 64 % 64 + 128), UInt8.ofNat (v % 64 + 128)] 0x10000 0x10FFFF =
              some c :=
          sequence?_payloads [v / 4096 % 64, v / 64 % 64, v % 64] (by simp; omega) (by simp; omega)
            (by omega) (by omega)
        exact (firstChar?_four (by omega) _ _ _ _).trans (congrArg (Option.map (·, 4)) hseq)

theorem decodeFrom_skip (bad : Option Char) (passed rest : List UInt8) (acc : List Char) :
    decodeFrom bad passed.length (passed ++ rest) acc = decodeFrom bad 0 rest acc := by
  induction passed with
  | nil => rfl
  | cons b passed ih => exact ih

theorem decodeFrom_encoded (bad : Option Char) (cs : List Char) (acc : List Char) :
    decodeFrom bad 0 (cs.flatMap String.utf8EncodeChar) acc = some (acc.reverse ++ cs) := by
  induction cs generalizing acc with
  | nil => simp [decodeFrom]
  | cons c cs ih =>
    have hfirst := firstChar?_encode c (cs.flatMap String.utf8EncodeChar)
    rw [List.flatMap_cons]
    cases hc : String.utf8EncodeChar c with
    | nil => exact absurd hc String.utf8EncodeChar_ne_nil
    | cons b passed =>
      rw [hc, List.cons_append] at hfirst
      rw [List.cons_append]
      unfold decodeFrom
      rw [hfirst]
      change decodeFrom bad passed.length _ _ = _
      rw [decodeFrom_skip, ih, List.reverse_cons, List.append_assoc]
      rfl

theorem decodeLossy_bytes (s : String) : decodeLossy (bytes s) = s.toList := by
  rw [decodeLossy, bytes_eq, decodeFrom_encoded]
  rfl

/-! ## Carriage returns -/

theorem sequence?_carriageReturn (lead : Nat) (tail : List UInt8) (lo hi : Nat) :
    sequence? lead (tail ++ [13]) lo hi = none := by
  have hfold : (tail ++ [13]).foldlM
      (fun acc b => do return acc * 64 + (← continuation? b)) lead = (none : Option Nat) := by
    rw [List.foldlM_append]
    cases tail.foldlM (fun acc b => do return acc * 64 + (← continuation? b)) lead with
    | none => rfl
    | some n => rfl
  unfold sequence?
  rw [hfold]
  rfl

/-- A carriage return completes no sequence, so it does not change the first character. -/
theorem firstChar?_carriageReturn (b : UInt8) (rest : List UInt8) :
    firstChar? (b :: (rest ++ [13])) = firstChar? (b :: rest) := by
  unfold firstChar?
  dsimp only
  split
  · rfl
  · split
    · match rest with
      | [] =>
        change (sequence? _ ([] ++ [13]) _ _).map _ = none
        rw [sequence?_carriageReturn]
        rfl
      | _ :: _ => rfl
    · split
      · match rest with
        | [] => rfl
        | [x] =>
          change (sequence? _ ([x] ++ [13]) _ _).map _ = none
          rw [sequence?_carriageReturn]
          rfl
        | _ :: _ :: _ => rfl
      · split
        · match rest with
          | [] => rfl
          | [_] => rfl
          | [x, y] =>
            change (sequence? _ ([x, y] ++ [13]) _ _).map _ = none
            rw [sequence?_carriageReturn]
            rfl
          | _ :: _ :: _ :: _ => rfl
        · rfl

theorem firstChar?_width {b : UInt8} {rest : List UInt8} {c : Char} {width : Nat}
    (h : firstChar? (b :: rest) = some (c, width)) : width - 1 ≤ rest.length := by
  unfold firstChar? at h
  dsimp only at h
  split at h
  · cases h
    exact Nat.zero_le _
  · split at h
    · split at h
      · obtain ⟨d, -, hd⟩ := Option.map_eq_some_iff.1 h
        cases hd
        simp
      · cases h
    · split at h
      · split at h
        · obtain ⟨d, -, hd⟩ := Option.map_eq_some_iff.1 h
          cases hd
          simp
        · cases h
      · split at h
        · split at h
          · obtain ⟨d, -, hd⟩ := Option.map_eq_some_iff.1 h
            cases hd
            simp
          · cases h
        · cases h

theorem decodeFrom_carriageReturn (r : Char) (bytes : List UInt8) :
    ∀ (skip : Nat) (acc : List Char), skip ≤ bytes.length →
      decodeFrom (some r) skip (bytes ++ [13]) acc
        = (decodeFrom (some r) skip bytes acc).map (· ++ ['\r']) := by
  induction bytes with
  | nil =>
    intro skip acc hskip
    cases Nat.le_zero.1 hskip
    have hfirst : firstChar? [13] = some ('\r', 1) := by decide
    simp [decodeFrom, hfirst]
  | cons b rest ih =>
    intro skip acc hskip
    cases skip with
    | succ skip => exact ih skip acc (Nat.le_of_succ_le_succ hskip)
    | zero =>
      rw [List.cons_append, decodeFrom, decodeFrom, firstChar?_carriageReturn]
      cases hc : firstChar? (b :: rest) with
      | none => exact ih 0 (r :: acc) (Nat.zero_le _)
      | some p => exact ih (p.2 - 1) (p.1 :: acc) (firstChar?_width hc)

theorem decodeFrom_isSome (r : Char) (bytes : List UInt8) :
    ∀ (skip : Nat) (acc : List Char), (decodeFrom (some r) skip bytes acc).isSome := by
  induction bytes with
  | nil =>
    intro skip acc
    simp [decodeFrom]
  | cons b rest ih =>
    intro skip acc
    cases skip with
    | succ skip => exact ih skip acc
    | zero =>
      rw [decodeFrom]
      cases firstChar? (b :: rest) with
      | none => exact ih 0 _
      | some p => exact ih _ _

theorem decodeLossy_carriageReturn (bytes : List UInt8) :
    decodeLossy (bytes ++ [13]) = decodeLossy bytes ++ ['\r'] := by
  unfold decodeLossy
  rw [decodeFrom_carriageReturn _ _ 0 [] (Nat.zero_le _)]
  obtain ⟨cs, hcs⟩ := Option.isSome_iff_exists.1 (decodeFrom_isSome replacement bytes 0 [])
  rw [hcs]
  rfl

end Arbor.Text
