import Arbor.Json.Read
import Arbor.Proofs.Text.Utf8
import Arbor.Text.Quoted
import Mathlib.Tactic.Ring

/-!
Quoted text can be read back.

The character between quotes that a text starts with, and what comes after it, follow from the text
(`Text.unquote?_quoteChar`). So quoted text ends where it seems to end, and texts that look alike
between quotes are the same (`Text.quoted_append_inj`).
-/

set_option autoImplicit false

namespace Arbor

/-! ## Hexadecimal digits -/

theorem Json.hexValue?_hexDigit {d : Nat} (hd : d < 16) : hexValue? (Text.hexDigit d) = some d := by
  have hall : ∀ d : Fin 16, hexValue? (Text.hexDigit d) = some d.val := by decide
  exact hall ⟨d, hd⟩

theorem Json.hex_hexDigits (width k acc n : Nat) (rest : List Char) :
    hex (width + k) acc (Text.hexDigits width n ++ rest) =
      hex k (acc * 16 ^ width + n % 16 ^ width) rest := by
  induction width generalizing k n rest with
  | zero => simp [Text.hexDigits, Nat.mod_one]
  | succ width ih =>
    have hdigit := hexValue?_hexDigit (Nat.mod_lt n (by omega : 0 < 16))
    have hsum : (acc * 16 ^ width + n / 16 % 16 ^ width) * 16 + n % 16 =
        acc * 16 ^ (width + 1) + n % 16 ^ (width + 1) := by
      rw [Nat.pow_succ', Nat.mod_mul]
      ring
    have hwidth : width + 1 + k = width + (k + 1) := by omega
    rw [Text.hexDigits, List.append_assoc, hwidth, ih, List.singleton_append, hex, hdigit]
    exact congrArg (hex k · rest) hsum

namespace Text

theorem hex_hexDigits {width n : Nat} (hn : n < 16 ^ width) (rest : List Char) :
    Json.hex width 0 (hexDigits width n ++ rest) = .ok (n, rest) := by
  have h := Json.hex_hexDigits width 0 0 n rest
  rwa [Nat.add_zero, Nat.zero_mul, Nat.zero_add, Nat.mod_eq_of_lt hn] at h

/-! ## One character -/

/-- The character that a letter after a backslash stands for. -/
def letter? : Char → Option Char
  | '"' => some '"'
  | '\\' => some '\\'
  | 'a' => some (Char.ofNat 7)
  | 'b' => some (Char.ofNat 8)
  | 't' => some (Char.ofNat 9)
  | 'n' => some (Char.ofNat 10)
  | 'v' => some (Char.ofNat 11)
  | 'f' => some (Char.ofNat 12)
  | 'r' => some (Char.ofNat 13)
  | _ => none

/-- The number of digits after a letter that announces a code point. -/
def width? : Char → Option Nat
  | 'x' => some 2
  | 'u' => some 4
  | 'U' => some 8
  | _ => none

/-- The character that an escape stands for, without its backslash, and what follows. -/
def escaped? (c : Char) (rest : List Char) : Option (Char × List Char) :=
  match width? c with
  | some width =>
    match Json.hex width 0 rest with
    | .ok (n, rest) => some (Char.ofNat n, rest)
    | .error _ => none
  | none => (letter? c).map (·, rest)

/-- The character that a text between quotes starts with, and what follows. -/
def unquote? : List Char → Option (Char × List Char)
  | [] => none
  | [c] => some (c, [])
  | c :: d :: rest => if c = '\\' then escaped? d rest else some (c, d :: rest)

theorem unquote?_plain {c : Char} (hc : c ≠ '\\') (rest : List Char) :
    unquote? (c :: rest) = some (c, rest) := by
  cases rest with
  | nil => rfl
  | cons d rest => rw [unquote?, if_neg hc]

theorem unquote?_code {letter c : Char} {width : Nat} (hletter : width? letter = some width)
    (hc : c.toNat < 16 ^ width) (rest : List Char) :
    unquote? ('\\' :: letter :: hexDigits width c.toNat ++ rest) = some (c, rest) := by
  simp only [List.cons_append, unquote?, if_true, escaped?, hletter, hex_hexDigits hc,
    Char.ofNat_toNat]

theorem unquote?_letter {letter c : Char} {n : Nat} (hwidth : width? letter = none)
    (hletter : letter? letter = some (Char.ofNat n)) (hc : c.toNat = n) (rest : List Char) :
    unquote? ('\\' :: letter :: rest) = some (c, rest) := by
  simp only [unquote?, if_true, escaped?, hwidth, hletter, Option.map_some, ← hc, Char.ofNat_toNat]

theorem unquote?_quoteChar (c : Char) (rest : List Char) :
    unquote? (quoteChar c ++ rest) = some (c, rest) := by
  unfold quoteChar
  split
  next h =>
    subst h
    rfl
  next =>
    split
    next h =>
      subst h
      rfl
    next hslash =>
      split
      next => exact unquote?_plain hslash rest
      next =>
        split
        iterate 7
          next h => exact unquote?_letter rfl rfl h rest
        next =>
          split
          next h => exact unquote?_code rfl (Nat.lt_trans h (by decide)) rest
          next =>
            split
            next h => exact unquote?_code rfl h rest
            next =>
              have hc : c.toNat < 16 ^ 8 := Nat.lt_trans (toNat_valid c).1 (by decide)
              exact unquote?_code rfl hc rest

/-! ## Quoted text -/

theorem quoteChar_head (c : Char) : ∃ d ds, quoteChar c = d :: ds ∧ d ≠ '"' := by
  unfold quoteChar
  split
  next => exact ⟨_, _, rfl, by decide⟩
  next hquote =>
    split
    next => exact ⟨_, _, rfl, by decide⟩
    next =>
      split
      next => exact ⟨_, _, rfl, hquote⟩
      next =>
        repeat' split
        all_goals exact ⟨_, _, rfl, by decide⟩

/-- Two texts between quotes that go on alike are the same and end at the same place. -/
theorem quoted_append_inj {cs ds r s : List Char}
    (h : cs.flatMap quoteChar ++ '"' :: r = ds.flatMap quoteChar ++ '"' :: s) :
    cs = ds ∧ r = s := by
  induction cs generalizing ds with
  | nil =>
    cases ds with
    | nil => exact ⟨rfl, (List.cons.inj h).2⟩
    | cons d ds =>
      obtain ⟨x, xs, hx, hne⟩ := quoteChar_head d
      rw [List.flatMap_cons, hx] at h
      exact absurd (List.cons.inj h).1.symm hne
  | cons c cs ih =>
    cases ds with
    | nil =>
      obtain ⟨x, xs, hx, hne⟩ := quoteChar_head c
      rw [List.flatMap_cons, hx] at h
      exact absurd (List.cons.inj h).1 hne
    | cons d ds =>
      have hread := congrArg unquote? h
      rw [List.flatMap_cons, List.flatMap_cons, List.append_assoc, List.append_assoc,
        unquote?_quoteChar, unquote?_quoteChar] at hread
      obtain ⟨rfl, hrest⟩ := Prod.mk.inj (Option.some.inj hread)
      obtain ⟨rfl, hr⟩ := ih hrest
      exact ⟨rfl, hr⟩

end Text

end Arbor
