import Arbor.Number.Decimal
import Mathlib.Algebra.Order.Field.Power
import Mathlib.Data.Rat.Cast.Order
import Mathlib.Tactic.FieldSimp
import Mathlib.Tactic.Linarith
import Mathlib.Tactic.Positivity
import Mathlib.Tactic.Ring

/-!
Rounding to a layout.

The pattern `Layout.round` finds depends on the ratio alone and not on how it is written
(`Layout.round_congr`), and a ratio whose significand fits into the layout is met exactly
(`Layout.read_round`). Integers up to `2 ^ 53` are therefore doubles, and going through the double
layout does not change what they round to.
-/

set_option autoImplicit false

namespace Arbor

namespace Layout

/-! ## Scaling and magnitude -/

theorem scale_pos (num : Nat) {den : Nat} (hd : 0 < den) (k : Int) : 0 < (scale num den k).2 := by
  unfold scale
  split
  · exact Nat.mul_pos hd (Nat.pow_pos (by decide))
  · exact hd

theorem scale_ratio (num : Nat) {den : Nat} (hd : 0 < den) (k : Int) :
    ((scale num den k).1 : ℚ) / (scale num den k).2 = num / den / 2 ^ k := by
  have hd : (den : ℚ) ≠ 0 := by positivity
  unfold scale
  simp only [Nat.pow_eq]
  split
  next hk =>
    obtain ⟨j, rfl⟩ := Int.eq_ofNat_of_zero_le hk
    rw [Int.toNat_natCast, zpow_natCast]
    push_cast
    rw [div_div]
  next hk =>
    obtain ⟨j, rfl⟩ : ∃ j : Nat, k = -j := ⟨(-k).toNat, by omega⟩
    rw [neg_neg, Int.toNat_natCast, zpow_neg, zpow_natCast]
    push_cast
    field_simp

theorem scale_le_iff (num : Nat) {den : Nat} (hd : 0 < den) (k : Int) :
    (scale num den k).2 ≤ (scale num den k).1 ↔ (2 : ℚ) ^ k ≤ num / den := by
  have hpos : (0 : ℚ) < (scale num den k).2 := by exact_mod_cast scale_pos num hd k
  have hpow : (0 : ℚ) < 2 ^ k := by positivity
  rw [← one_le_div hpow, ← scale_ratio num hd, one_le_div hpos]
  exact_mod_cast Iff.rfl

theorem magnitudeOf_spec {num den : Nat} (hn : 0 < num) (hd : 0 < den) :
    (2 : ℚ) ^ magnitudeOf num den ≤ num / den ∧
      (num : ℚ) / den < 2 ^ (magnitudeOf num den + 1) := by
  have hdq : (0 : ℚ) < den := by exact_mod_cast hd
  have hnlow : (2 : ℚ) ^ Nat.log2 num ≤ num := by exact_mod_cast Nat.log2_self_le hn.ne'
  have hnhigh : (num : ℚ) < 2 ^ (Nat.log2 num + 1) := by exact_mod_cast Nat.lt_log2_self
  have hdlow : (2 : ℚ) ^ Nat.log2 den ≤ den := by exact_mod_cast Nat.log2_self_le hd.ne'
  have hdhigh : (den : ℚ) < 2 ^ (Nat.log2 den + 1) := by exact_mod_cast Nat.lt_log2_self
  have hlow : (2 : ℚ) ^ ((Nat.log2 num : Int) - Nat.log2 den - 1) ≤ num / den := by
    have he : (Nat.log2 num : Int) - Nat.log2 den - 1 = Nat.log2 num - (Nat.log2 den + 1 : Nat) := by
      omega
    rw [he, zpow_sub₀ two_ne_zero, zpow_natCast, zpow_natCast]
    gcongr
  have hhigh : (num : ℚ) / den < 2 ^ ((Nat.log2 num : Int) - Nat.log2 den + 1) := by
    have he : (Nat.log2 num : Int) - Nat.log2 den + 1 = (Nat.log2 num + 1 : Nat) - Nat.log2 den := by
      omega
    rw [he, zpow_sub₀ two_ne_zero, zpow_natCast, zpow_natCast]
    gcongr
  unfold magnitudeOf
  simp only [scale_le_iff num hd]
  split
  next h => exact ⟨h, hhigh⟩
  next h =>
    refine ⟨hlow, ?_⟩
    rw [Int.sub_add_cancel]
    exact not_le.1 h

theorem magnitudeOf_eq {num den : Nat} (hn : 0 < num) (hd : 0 < den) {k : Int}
    (hlow : (2 : ℚ) ^ k ≤ num / den) (hhigh : (num : ℚ) / den < 2 ^ (k + 1)) :
    magnitudeOf num den = k := by
  obtain ⟨h1, h2⟩ := magnitudeOf_spec hn hd
  have h3 := (zpow_lt_zpow_iff_right₀ one_lt_two).1 (h1.trans_lt hhigh)
  have h4 := (zpow_lt_zpow_iff_right₀ one_lt_two).1 (hlow.trans_lt h2)
  omega

/-! ## The pattern depends on the ratio alone -/

theorem nearest_mul (num : Nat) {den c : Nat} (hc : 0 < c) :
    nearest (num * c) (den * c) = nearest num den := by
  have h1 : 2 * (num % den * c) < den * c ↔ 2 * (num % den) < den := by
    rw [← Nat.mul_assoc]
    exact Nat.mul_lt_mul_right hc
  have h2 : den * c < 2 * (num % den * c) ↔ den < 2 * (num % den) := by
    rw [← Nat.mul_assoc]
    exact Nat.mul_lt_mul_right hc
  unfold nearest
  simp only [Nat.mul_div_mul_right _ _ hc, Nat.mul_mod_mul_right, h1, h2]

theorem nearest_congr {n d n' d' : Nat} (hd : 0 < d) (hd' : 0 < d')
    (h : (n : ℚ) / d = n' / d') : nearest n d = nearest n' d' := by
  have hcross : n * d' = n' * d := by
    have hq : (0 : ℚ) < d := by exact_mod_cast hd
    have hq' : (0 : ℚ) < d' := by exact_mod_cast hd'
    rw [div_eq_div_iff hq.ne' hq'.ne'] at h
    exact_mod_cast h
  calc nearest n d = nearest (n * d') (d * d') := (nearest_mul n hd').symm
    _ = nearest (n' * d) (d' * d) := by rw [hcross, Nat.mul_comm d d']
    _ = nearest n' d' := nearest_mul n' hd

/-- The unit in the last place, for a ratio of that magnitude. -/
theorem round_eq (L : Layout) (negative : Bool) {num den : Nat} (hn : 0 < num) :
    L.round negative num den =
      (if negative then L.sign else 0) +
        let place := max L.leastPlace (magnitudeOf num den - L.fraction)
        let s := scale num den place
        min L.infinity ((place - L.leastPlace).toNat * 2 ^ L.fraction + nearest s.1 s.2) := by
  unfold round
  rw [if_neg hn.ne']
  cases negative <;> simp

theorem round_zero (L : Layout) (negative : Bool) (den : Nat) :
    L.round negative 0 den = if negative then L.sign else 0 := by
  cases negative <;> simp [round]

theorem round_congr (L : Layout) (negative : Bool) {num den num' den' : Nat} (hd : 0 < den)
    (hd' : 0 < den') (h : (num : ℚ) / den = num' / den') :
    L.round negative num den = L.round negative num' den' := by
  have hdq : (0 : ℚ) < den := by exact_mod_cast hd
  have hdq' : (0 : ℚ) < den' := by exact_mod_cast hd'
  have hpos : 0 < num ↔ 0 < num' := by
    have h1 : (0 : ℚ) < num / den ↔ 0 < num := by rw [div_pos_iff_of_pos_right hdq]; simp
    have h2 : (0 : ℚ) < num' / den' ↔ 0 < num' := by rw [div_pos_iff_of_pos_right hdq']; simp
    rw [← h1, h, h2]
  obtain rfl | hn := Nat.eq_zero_or_pos num
  · obtain rfl : num' = 0 := by omega
    rw [round_zero, round_zero]
  · have hn' := hpos.1 hn
    have hmag : magnitudeOf num den = magnitudeOf num' den' := by
      obtain ⟨h1, h2⟩ := magnitudeOf_spec hn' hd'
      exact magnitudeOf_eq hn hd (h ▸ h1) (h ▸ h2)
    rw [round_eq L negative hn, round_eq L negative hn', hmag]
    simp only
    congr 3
    apply nearest_congr (scale_pos _ hd _) (scale_pos _ hd' _)
    rw [scale_ratio _ hd, scale_ratio _ hd', h]

/-! ## Exact ratios -/

theorem infinity_lt_sign (L : Layout) : L.infinity < L.sign := by
  unfold infinity sign
  simp only [Nat.pow_eq, Nat.pow_add]
  exact Nat.mul_lt_mul_of_pos_right (Nat.sub_one_lt (by positivity)) (by positivity)

/-- Taking apart a pattern below infinity. -/
theorem read_signed (L : Layout) (negative : Bool) {steps m : Nat}
    (hlow : 2 ^ L.fraction ≤ m) (hhigh : m < 2 ^ (L.fraction + 1))
    (htop : steps * 2 ^ L.fraction + m < L.infinity) :
    L.read ((if negative then L.sign else 0) + (steps * 2 ^ L.fraction + m)) =
      .finite negative m (L.leastPlace + steps) := by
  have hsign := L.infinity_lt_sign
  set w := steps * 2 ^ L.fraction + m with hw
  have hmod : ((if negative then L.sign else 0) + w) % L.sign = w := by
    cases negative
    · simpa using Nat.mod_eq_of_lt (by omega)
    · simpa using Nat.mod_eq_of_lt (by omega : w < L.sign)
  have hneg : (L.sign ≤ (if negative then L.sign else 0) + w) ↔ negative = true := by
    cases negative <;> simp
    omega
  have hpow : 2 ^ (L.fraction + 1) = 2 * 2 ^ L.fraction := by ring
  have hfield : w / 2 ^ L.fraction = steps + 1 := by
    apply Nat.div_eq_of_lt_le
    · rw [hw, Nat.add_mul, Nat.one_mul]
      omega
    · rw [hw, Nat.add_mul, Nat.add_mul, Nat.one_mul]
      omega
  have hfraction : w % 2 ^ L.fraction = m - 2 ^ L.fraction := by
    have := Nat.div_add_mod w (2 ^ L.fraction)
    rw [hfield, Nat.mul_comm, Nat.add_mul, Nat.one_mul] at this
    omega
  unfold read
  simp only [Nat.pow_eq, hmod, hfield, hfraction, hneg]
  rw [if_neg (by omega), if_neg (by omega), if_neg (by omega)]
  congr 1
  · simp
  · omega

/-- A ratio with a significand of the right width is met exactly. -/
theorem read_round (L : Layout) (negative : Bool) {num den m steps : Nat} (hd : 0 < den)
    (hlow : 2 ^ L.fraction ≤ m) (hhigh : m < 2 ^ (L.fraction + 1))
    (htop : steps * 2 ^ L.fraction + m < L.infinity)
    (h : (num : ℚ) / den = m * 2 ^ (L.leastPlace + steps)) :
    L.read (L.round negative num den) = .finite negative m (L.leastPlace + steps) := by
  have hdq : (0 : ℚ) < den := by exact_mod_cast hd
  have hmpos : (0 : ℚ) < m := by
    have : 0 < 2 ^ L.fraction := by positivity
    exact_mod_cast this.trans_le hlow
  have hn : 0 < num := by
    have : (0 : ℚ) < num / den := by rw [h]; positivity
    rw [div_pos_iff_of_pos_right hdq] at this
    exact_mod_cast this
  have hmag : magnitudeOf num den = L.leastPlace + steps + L.fraction := by
    have hlow : (2 : ℚ) ^ L.fraction ≤ m := by exact_mod_cast hlow
    have hhigh : (m : ℚ) < 2 ^ (L.fraction + 1) := by exact_mod_cast hhigh
    have hpow : (0 : ℚ) < 2 ^ (L.leastPlace + steps) := by positivity
    apply magnitudeOf_eq hn hd
    · have he : L.leastPlace + steps + L.fraction = L.fraction + (L.leastPlace + steps) := by omega
      rw [h, he, zpow_add₀ two_ne_zero, zpow_natCast]
      exact mul_le_mul_of_nonneg_right hlow hpow.le
    · have he : L.leastPlace + steps + L.fraction + 1 =
          (L.fraction + 1 : Nat) + (L.leastPlace + steps) := by omega
      rw [h, he, zpow_add₀ two_ne_zero ((L.fraction + 1 : Nat) : Int), zpow_natCast]
      exact mul_lt_mul_of_pos_right hhigh hpow
  have hplace : max L.leastPlace (magnitudeOf num den - L.fraction) = L.leastPlace + steps := by
    omega
  have hnear : nearest (scale num den (L.leastPlace + steps)).1
      (scale num den (L.leastPlace + steps)).2 = m := by
    have : nearest m 1 = m := by simp [nearest, Nat.mod_one]
    rw [← this]
    apply nearest_congr (scale_pos _ hd _) one_pos
    rw [scale_ratio _ hd, h]
    field_simp
    simp
  rw [round_eq L negative hn]
  simp only [hplace, hnear]
  rw [show (L.leastPlace + steps - L.leastPlace).toNat = steps by omega, min_eq_right htop.le]
  exact read_signed L negative hlow hhigh htop

theorem round_lt (L : Layout) (negative : Bool) (num den : Nat) :
    L.round negative num den < 2 * L.sign := by
  have hsign := L.infinity_lt_sign
  obtain rfl | hn := Nat.eq_zero_or_pos num
  · rw [round_zero]
    split <;> omega
  · rw [round_eq L negative hn]
    simp only
    split <;> omega

theorem read_zero (L : Layout) (hL : 0 < L.exponent) (negative : Bool) :
    L.read (if negative then L.sign else 0) = .finite negative 0 L.leastPlace := by
  have hinfinity : 0 < L.infinity := by
    unfold infinity
    simp only [Nat.pow_eq]
    exact Nat.mul_pos (Nat.sub_pos_of_lt (Nat.one_lt_two_pow hL.ne')) (by positivity)
  have hsign := L.infinity_lt_sign
  unfold read
  cases negative
  · simp [hinfinity.ne]
    omega
  · simp [hinfinity.ne]

/-! ## Integers as doubles -/

theorem leastPlace_double : double.leastPlace = -1074 := by decide

theorem infinity_double : double.infinity = 2047 * 2 ^ 52 := by decide

/-- Integers up to `2 ^ 53` are doubles. -/
theorem read_round_integer (negative : Bool) {n : Nat} (hle : n ≤ 2 ^ 53) :
    ∃ m place, double.read (double.round negative n 1) = .finite negative m place ∧
      (n : ℚ) = m * 2 ^ place := by
  obtain rfl | hn := Nat.eq_zero_or_pos n
  · rw [round_zero, read_zero double (by decide)]
    exact ⟨0, _, rfl, by simp⟩
  have hlow := Nat.log2_self_le hn.ne'
  have hhigh := @Nat.lt_log2_self n
  have hk : Nat.log2 n ≤ 53 := by
    rw [← Nat.lt_succ_iff, Nat.log2_lt hn.ne']
    omega
  -- The significand is the number with its leading bit moved to the width of the layout.
  obtain ⟨m, hm, hmlow, hmhigh⟩ : ∃ m : Nat, (n : ℚ) = m * 2 ^ ((Nat.log2 n : Int) - 52) ∧
      2 ^ 52 ≤ m ∧ m < 2 ^ 53 := by
    generalize Nat.log2 n = k at hlow hhigh hk
    obtain hk | rfl : k ≤ 52 ∨ k = 53 := by omega
    · refine ⟨n * 2 ^ (52 - k), ?_, ?_, ?_⟩
      · have he : (k : Int) - 52 = -(52 - k : Nat) := by omega
        rw [he, zpow_neg, zpow_natCast]
        push_cast
        field_simp
      · have he : 52 = k + (52 - k) := by omega
        rw [he, Nat.pow_add, ← he]
        exact Nat.mul_le_mul_right _ hlow
      · have he : 53 = k + 1 + (52 - k) := by omega
        rw [he, Nat.pow_add]
        exact Nat.mul_lt_mul_of_pos_right hhigh (by positivity)
    · obtain rfl : n = 2 ^ 53 := by omega
      exact ⟨2 ^ 52, by norm_num, le_refl _, by norm_num⟩
  have hplace : (Nat.log2 n : Int) - 52 = double.leastPlace + (Nat.log2 n + 1022 : Nat) := by
    rw [leastPlace_double]
    omega
  have htop : (Nat.log2 n + 1022) * 2 ^ double.fraction + m < double.infinity := by
    rw [infinity_double]
    change (Nat.log2 n + 1022) * 2 ^ 52 + m < _
    omega
  rw [hplace] at hm
  refine ⟨m, _, read_round double negative one_pos hmlow hmhigh htop ?_, hm⟩
  rw [Nat.cast_one, div_one, hm]

theorem ofDatum_finite (L : Layout) (negative : Bool) (m : Nat) (place : Int) {num den : Nat}
    (hd : 0 < den) (h : (num : ℚ) / den = m * 2 ^ place) :
    L.ofDatum (.finite negative m place) = L.round negative num den := by
  unfold ofDatum
  simp only [Nat.pow_eq]
  split
  next hp =>
    obtain ⟨k, rfl⟩ := Int.eq_ofNat_of_zero_le hp
    apply round_congr L negative one_pos hd
    rw [h, Int.toNat_natCast, zpow_natCast]
    push_cast
    rw [div_one]
  next hp =>
    obtain ⟨k, rfl⟩ : ∃ k : Nat, place = -k := ⟨(-place).toNat, by omega⟩
    apply round_congr L negative (by positivity) hd
    rw [h, neg_neg, Int.toNat_natCast, zpow_neg, zpow_natCast]
    push_cast
    rw [div_eq_mul_inv]

end Layout

open Layout

theorem Double.toSingle_round_integer (negative : Bool) {n : Nat} (hle : n ≤ 2 ^ 53) :
    (Double.ofPattern (double.round negative n 1)).toSingle =
      Single.ofPattern (single.round negative n 1) := by
  obtain ⟨m, place, hread, hn⟩ := read_round_integer negative hle
  have hbits : (double.round negative n 1).toUInt64.toNat = double.round negative n 1 :=
    UInt64.toNat_ofNat_of_lt (double.round_lt negative n 1)
  have hdatum : (Double.ofPattern (double.round negative n 1)).datum = .finite negative m place := by
    rw [Double.datum, Double.ofPattern, hbits, hread]
  rw [Double.toSingle, hdatum, ofDatum_finite single negative m place one_pos]
  rw [Nat.cast_one, div_one, hn]

namespace Decimal

theorem pattern_integer (L : Layout) (negative : Bool) {n : Nat} (hle : n ≤ 2 ^ 53) :
    pattern ⟨negative, n, 0⟩ L = L.round negative n 1 := by
  have hwidth : width n ≤ 16 := by
    rw [width, Nat.length_toDigits_le_iff (by decide) (by decide)]
    omega
  unfold pattern
  simp only [reach]
  split
  next h =>
    obtain rfl : n = 0 := by omega
    rfl
  next =>
    rw [if_neg (by omega), if_pos (le_refl 0)]
    simp

theorem toDouble?_integer (negative : Bool) {n : Nat} (hle : n ≤ 2 ^ 53) :
    toDouble? ⟨negative, n, 0⟩ = some (Double.ofPattern (double.round negative n 1)) := by
  obtain ⟨m, place, hread, -⟩ := read_round_integer negative hle
  have hfinite : double.round negative n 1 % double.sign ≠ double.infinity := by
    intro h
    unfold Layout.read at hread
    rw [if_neg (by omega), if_pos h] at hread
    cases hread
  unfold toDouble?
  rw [pattern_integer double negative hle]
  exact if_neg hfinite

end Decimal

end Arbor
