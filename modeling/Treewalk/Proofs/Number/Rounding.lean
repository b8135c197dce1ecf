import Mathlib.Data.Int.Log
import Mathlib.Data.Rat.Floor
import Mathlib.Tactic.FieldSimp
import Mathlib.Tactic.Ring
import Treewalk.Number.Decimal

/-! # Rounding to doubles

    Which double is nearest to a fraction depends on its value alone, and for the value
    of a double it is that double.  The shortest decimal of a double is found by trial, or
    it is the exact value; either way it reads back as the double. -/

namespace Treewalk.Number

/-! ### Values -/

/-- The value of a dyadic number. -/
def Dyadic.value (x : Dyadic) : ℚ := x.mantissa * 2 ^ x.exponent

/-- The value of a decimal. -/
def Decimal.value (d : Decimal) : ℚ := d.digits * 10 ^ d.exponent

/-- An integral power as a fraction of natural numbers. -/
theorem zpow_eq_div {b : Nat} (hb : 0 < b) (k : ℤ) :
    (b : ℚ) ^ k = (b ^ k.toNat : Nat) / (b ^ (-k).toNat : Nat) := by
  have hb' : (b : ℚ) ≠ 0 := by exact_mod_cast hb.ne'
  rcases le_total 0 k with hk | hk
  · obtain ⟨n, rfl⟩ := Int.eq_ofNat_of_zero_le hk
    simp
  · obtain ⟨n, hn⟩ := Int.eq_ofNat_of_zero_le (Int.neg_nonneg.mpr hk)
    obtain rfl : k = -n := by omega
    simp

theorem Dyadic.value_eq (x : Dyadic) : x.value = (x.numerator : ℚ) / x.denominator := by
  have hpow := zpow_eq_div (b := 2) (by decide) x.exponent
  unfold value numerator denominator
  rw [Nat.cast_mul, mul_div_assoc]
  exact congrArg ((x.mantissa : ℚ) * ·) hpow

theorem Decimal.value_eq (d : Decimal) : d.value = (d.numerator : ℚ) / d.denominator := by
  have hpow := zpow_eq_div (b := 10) (by decide) d.exponent
  unfold value numerator denominator
  rw [Nat.cast_mul, mul_div_assoc]
  exact congrArg ((d.digits : ℚ) * ·) hpow

theorem Dyadic.denominator_pos (x : Dyadic) : 0 < x.denominator := Nat.pow_pos (by decide)

theorem Decimal.denominator_pos (d : Decimal) : 0 < d.denominator := Nat.pow_pos (by decide)

/-! ### The nearest double -/

/-- The comparison that `floorLog2` makes is one with a power of two. -/
theorem zpow_le_div_iff (num : Nat) {den : Nat} (hden : 0 < den) (k : ℤ) :
    (2 : ℚ) ^ k ≤ num / den ↔ den * Nat.pow 2 k.toNat ≤ num * Nat.pow 2 (-k).toNat := by
  have hpow := zpow_eq_div (b := 2) (by decide) k
  have hden' : (0 : ℚ) < den := by exact_mod_cast hden
  have hneg : (0 : ℚ) < (2 ^ (-k).toNat : Nat) := by positivity
  rw [show (2 : ℚ) = ((2 : Nat) : ℚ) from rfl, hpow, div_le_div_iff₀ hneg hden', mul_comm]
  norm_cast

theorem floorLog2_eq {num den : Nat} (hnum : 0 < num) (hden : 0 < den) :
    floorLog2 num den = Int.log 2 ((num : ℚ) / den) := by
  have hnum' : (0 : ℚ) < num := by exact_mod_cast hnum
  have hden' : (0 : ℚ) < den := by exact_mod_cast hden
  have hpos : (0 : ℚ) < num / den := div_pos hnum' hden'
  -- both numbers lie between two powers of two, so the quotient does between three
  have hbounds : (2 : ℚ) ^ ((num.log2 : ℤ) - den.log2 - 1) ≤ num / den ∧
      (num : ℚ) / den < 2 ^ ((num.log2 : ℤ) - den.log2 + 1) := by
    have hnum₁ : (2 : ℚ) ^ num.log2 ≤ num := by exact_mod_cast Nat.log2_self_le hnum.ne'
    have hnum₂ : (num : ℚ) < 2 ^ (num.log2 + 1) := by exact_mod_cast Nat.lt_log2_self
    have hden₁ : (2 : ℚ) ^ den.log2 ≤ den := by exact_mod_cast Nat.log2_self_le hden.ne'
    have hden₂ : (den : ℚ) < 2 ^ (den.log2 + 1) := by exact_mod_cast Nat.lt_log2_self
    constructor
    · calc (2 : ℚ) ^ ((num.log2 : ℤ) - den.log2 - 1)
          = 2 ^ num.log2 / 2 ^ (den.log2 + 1) := by
            rw [show (num.log2 : ℤ) - den.log2 - 1 = num.log2 - (den.log2 + 1 : Nat) by omega,
              zpow_sub₀ two_ne_zero, zpow_natCast, zpow_natCast]
        _ ≤ num / den := div_le_div₀ hnum'.le hnum₁ hden' hden₂.le
    · calc (num : ℚ) / den < 2 ^ (num.log2 + 1) / 2 ^ den.log2 :=
            div_lt_div₀ hnum₂ hden₁ (by positivity) (by positivity)
        _ = 2 ^ ((num.log2 : ℤ) - den.log2 + 1) := by
            rw [show (num.log2 : ℤ) - den.log2 + 1 = (num.log2 + 1 : Nat) - den.log2 by omega,
              zpow_sub₀ two_ne_zero, zpow_natCast, zpow_natCast]
  obtain ⟨hlow, hhigh⟩ := hbounds
  have hlow := (Int.zpow_le_iff_le_log one_lt_two hpos).mp hlow
  have hhigh := (Int.lt_zpow_iff_log_lt one_lt_two hpos).mp hhigh
  have htest := zpow_le_div_iff num hden ((num.log2 : ℤ) - den.log2)
  rw [show (2 : ℚ) = ((2 : Nat) : ℚ) from rfl, Int.zpow_le_iff_le_log one_lt_two hpos] at htest
  unfold floorLog2
  dsimp only
  generalize (num.log2 : ℤ) - den.log2 = k at hlow hhigh htest ⊢
  split
  · next h =>
    have := htest.mpr h
    omega
  · next h =>
    have := mt htest.mp h
    omega

/-- Rounding a quotient does not depend on how the fraction is written. -/
theorem roundDiv_mul {k : Nat} (hk : 0 < k) (num den : Nat) :
    roundDiv (k * num) (k * den) = roundDiv num den := by
  unfold roundDiv
  dsimp only
  rw [Nat.mul_div_mul_left num den hk, Nat.mul_mod_mul_left k num den]
  have hlt : 2 * (k * (num % den)) < k * den ↔ 2 * (num % den) < den := by
    rw [Nat.mul_left_comm, Nat.mul_lt_mul_left hk]
  have heq : 2 * (k * (num % den)) = k * den ↔ 2 * (num % den) = den := by
    rw [Nat.mul_left_comm, Nat.mul_right_inj hk.ne']
  simp only [hlt, heq]

theorem roundDiv_congr {a b c d : Nat} (hb : 0 < b) (hd : 0 < d) (h : a * d = c * b) :
    roundDiv a b = roundDiv c d := by
  rw [← roundDiv_mul hd a b, ← roundDiv_mul hb c d, Nat.mul_comm d a, h, Nat.mul_comm c b,
    Nat.mul_comm d b]

theorem div_eq_div_iff_nat {a b c d : Nat} (hb : 0 < b) (hd : 0 < d) :
    (a : ℚ) / b = c / d ↔ a * d = c * b := by
  have hb' : (b : ℚ) ≠ 0 := by exact_mod_cast hb.ne'
  have hd' : (d : ℚ) ≠ 0 := by exact_mod_cast hd.ne'
  rw [div_eq_div_iff hb' hd']
  norm_cast

/-- The nearest double depends on the value of a fraction alone. -/
theorem nearest_congr {a b c d : Nat} (hb : 0 < b) (hd : 0 < d) (h : (a : ℚ) / b = c / d) :
    nearest a b = nearest c d := by
  have hcross := (div_eq_div_iff_nat hb hd).mp h
  have hzero : a = 0 ↔ c = 0 := by
    constructor
    · rintro rfl
      rw [Nat.zero_mul] at hcross
      exact (Nat.mul_eq_zero.mp hcross.symm).resolve_right hb.ne'
    · rintro rfl
      rw [Nat.zero_mul] at hcross
      exact (Nat.mul_eq_zero.mp hcross).resolve_right hd.ne'
  by_cases ha : a = 0
  · rw [nearest, if_pos ha, nearest, if_pos (hzero.mp ha)]
  · have hc := mt hzero.mpr ha
    have hplace : lastPlace a b = lastPlace c d := by
      unfold lastPlace
      rw [floorLog2_eq (Nat.pos_of_ne_zero ha) hb, floorLog2_eq (Nat.pos_of_ne_zero hc) hd, h]
    unfold nearest
    rw [if_neg ha, if_neg hc, hplace]
    dsimp only
    have hround := roundDiv_congr (a := a * Nat.pow 2 (-lastPlace c d).toNat)
      (b := b * Nat.pow 2 (lastPlace c d).toNat) (c := c * Nat.pow 2 (-lastPlace c d).toNat)
      (d := d * Nat.pow 2 (lastPlace c d).toNat)
      (Nat.mul_pos hb (Nat.pow_pos (by decide))) (Nat.mul_pos hd (Nat.pow_pos (by decide)))
      (by rw [Nat.mul_mul_mul_comm, hcross, Nat.mul_mul_mul_comm])
    rw [hround]

/-! ### Doubles -/

/-- The value of a finite double: its exponent is the least one, or its leading bit
    is there. -/
structure Dyadic.IsDouble (x : Dyadic) : Prop where
  mantissa_lt : x.mantissa < 2 * hiddenBit
  leastExponent_le : leastExponent ≤ x.exponent
  normal : x.exponent = leastExponent ∨ hiddenBit ≤ x.mantissa

theorem hiddenBit_eq : hiddenBit = 2 ^ 52 := by decide

theorem Dyadic.isDouble_ofBits (bits : Nat) : (Dyadic.ofBits bits).IsDouble := by
  have hfraction : bits % hiddenBit < hiddenBit := Nat.mod_lt bits (by decide)
  unfold ofBits
  dsimp only
  split
  · exact ⟨by dsimp only; omega, le_rfl, .inl rfl⟩
  · exact ⟨by dsimp only; omega, by dsimp only; omega, .inr (Nat.le_add_right _ _)⟩

/-- The last place that a double near to the value of a double can hold is its own. -/
theorem Dyadic.IsDouble.lastPlace {x : Dyadic} (h : x.IsDouble) (hpos : 0 < x.mantissa) :
    lastPlace x.numerator x.denominator = x.exponent := by
  obtain ⟨hlt, hle, hnormal⟩ := h
  have hnum : 0 < x.numerator := Nat.mul_pos hpos (Nat.pow_pos (by decide))
  have hmantissa : (0 : ℚ) < x.mantissa := by exact_mod_cast hpos
  have hvalue : 0 < x.value := mul_pos hmantissa (zpow_pos two_pos x.exponent)
  have hhigh : Int.log 2 x.value < 53 + x.exponent := by
    rw [← Int.lt_zpow_iff_log_lt one_lt_two hvalue, Dyadic.value]
    have hmantissa' : (x.mantissa : ℚ) < 2 ^ (53 : ℤ) := by
      have h53 : x.mantissa < 2 ^ 53 := by
        rw [hiddenBit_eq] at hlt
        omega
      exact_mod_cast h53
    push_cast
    rw [zpow_add₀ two_ne_zero]
    exact mul_lt_mul_of_pos_right hmantissa' (zpow_pos two_pos x.exponent)
  have hlow (hhidden : hiddenBit ≤ x.mantissa) : 52 + x.exponent ≤ Int.log 2 x.value := by
    rw [← Int.zpow_le_iff_le_log one_lt_two hvalue, Dyadic.value]
    have hmantissa' : (2 : ℚ) ^ (52 : ℤ) ≤ x.mantissa := by
      rw [hiddenBit_eq] at hhidden
      exact_mod_cast hhidden
    push_cast
    rw [zpow_add₀ two_ne_zero]
    exact mul_le_mul_of_nonneg_right hmantissa' (zpow_pos two_pos x.exponent).le
  have hbits : ((fractionBits : Nat) : ℤ) = 52 := rfl
  unfold Number.lastPlace
  rw [floorLog2_eq hnum x.denominator_pos, ← x.value_eq, hbits]
  rcases hnormal with hleast | hhidden
  · rw [hleast] at hhigh
    omega
  · have hlow := hlow hhidden
    omega

theorem roundDiv_mul_self {k : Nat} (hk : 0 < k) (n : Nat) : roundDiv (n * k) k = n := by
  have hone : roundDiv (k * n) (k * 1) = roundDiv n 1 := roundDiv_mul hk n 1
  rw [Nat.mul_one, Nat.mul_comm] at hone
  rw [hone]
  simp [roundDiv, Nat.mod_one]

/-- A double is the nearest one to its own value. -/
theorem nearest_ofBits {bits : Nat} (h : bits < infinityBits) :
    nearest (Dyadic.ofBits bits).numerator (Dyadic.ofBits bits).denominator = bits := by
  have hdouble := Dyadic.isDouble_ofBits bits
  have hsplit : bits = bits / hiddenBit * hiddenBit + bits % hiddenBit :=
    (Nat.div_add_mod' bits hiddenBit).symm
  -- the fields of a double are its magnitude bits
  have hfields : ((Dyadic.ofBits bits).exponent - leastExponent).toNat * hiddenBit +
      (Dyadic.ofBits bits).mantissa = bits := by
    unfold Dyadic.ofBits
    dsimp only
    split
    · next hfield =>
      rw [hfield] at hsplit
      simpa using hsplit.symm
    · next hfield =>
      dsimp only
      have hexponent : (leastExponent + ((bits / hiddenBit - 1 : Nat) : Int) - leastExponent).toNat =
          bits / hiddenBit - 1 := by omega
      rw [hexponent]
      have hcarry : (bits / hiddenBit - 1) * hiddenBit + hiddenBit = bits / hiddenBit * hiddenBit := by
        rw [← Nat.succ_mul, Nat.succ_eq_add_one, Nat.sub_add_cancel (Nat.pos_of_ne_zero hfield)]
      omega
  generalize Dyadic.ofBits bits = x at hdouble hfields
  unfold nearest
  split
  · next hzero =>
    have hmantissa : x.mantissa = 0 :=
      (Nat.mul_eq_zero.mp hzero).resolve_right (Nat.pow_pos (by decide)).ne'
    have hexponent : x.exponent = leastExponent := by
      refine hdouble.normal.resolve_right ?_
      rw [hmantissa]
      decide
    rw [hmantissa, hexponent] at hfields
    simpa using hfields
  · next hzero =>
    have hpos : 0 < x.mantissa := by
      refine Nat.pos_of_ne_zero fun hmantissa => hzero ?_
      rw [Dyadic.numerator, hmantissa, Nat.zero_mul]
    have hscale : 0 < Nat.pow 2 (-x.exponent).toNat * Nat.pow 2 x.exponent.toNat :=
      Nat.mul_pos (Nat.pow_pos (by decide)) (Nat.pow_pos (by decide))
    have hmantissa : x.numerator * Nat.pow 2 (-x.exponent).toNat =
        x.mantissa * (Nat.pow 2 (-x.exponent).toNat * Nat.pow 2 x.exponent.toNat) := by
      rw [Dyadic.numerator, Nat.mul_assoc, Nat.mul_comm (Nat.pow 2 x.exponent.toNat)]
    dsimp only
    rw [hdouble.lastPlace hpos, hmantissa, Dyadic.denominator, roundDiv_mul_self hscale, hfields]
    exact Nat.min_eq_left h.le

/-! ### Shortest decimals -/

/-- What a decimal is read as depends on its value alone. -/
theorem Decimal.toBits_congr {d d' : Decimal} (h : d.value = d'.value) : d.toBits = d'.toBits := by
  rw [Decimal.value_eq, Decimal.value_eq] at h
  exact nearest_congr d.denominator_pos d'.denominator_pos h

/-- A decimal with the value of a double is read as the double. -/
theorem Decimal.toBits_of_value_eq {d : Decimal} {bits : Nat} (hbits : bits < infinityBits)
    (h : d.value = (Dyadic.ofBits bits).value) : d.toBits = bits := by
  rw [Decimal.value_eq, Dyadic.value_eq] at h
  exact (nearest_congr d.denominator_pos (Dyadic.ofBits bits).denominator_pos h).trans
    (nearest_ofBits hbits)

theorem Dyadic.value_toDecimal (x : Dyadic) : x.toDecimal.value = x.value := by
  unfold toDecimal
  split
  · next hneg =>
    obtain ⟨n, hn⟩ : ∃ n : Nat, x.exponent = -n := ⟨x.exponent.natAbs, by omega⟩
    have habs : x.exponent.natAbs = n := by omega
    unfold Decimal.value Dyadic.value
    dsimp only
    rw [habs, hn, zpow_neg, zpow_neg, zpow_natCast, zpow_natCast, Nat.cast_mul]
    have hten : (10 : ℚ) ^ n = 5 ^ n * 2 ^ n := by rw [← mul_pow]; norm_num
    rw [hten, show ((Nat.pow 5 n : Nat) : ℚ) = 5 ^ n from Nat.cast_pow 5 n]
    field_simp
  · next hpos =>
    obtain ⟨n, hn⟩ : ∃ n : Nat, x.exponent = n := Int.eq_ofNat_of_zero_le (not_lt.mp hpos)
    unfold Decimal.value Dyadic.value
    dsimp only
    rw [hn, Int.toNat_natCast, zpow_zero, mul_one, zpow_natCast, Nat.cast_mul]
    exact congrArg ((x.mantissa : ℚ) * ·) (Nat.cast_pow 2 n)

@[simp] theorem Decimal.value_strip (n : Nat) (d : Decimal) : (d.strip n).value = d.value := by
  induction n generalizing d with
  | zero => rfl
  | succ n ih =>
    unfold strip
    split
    · next h =>
      rw [ih]
      have hdigits : ((d.digits / 10 : Nat) : ℚ) * 10 = d.digits := by
        exact_mod_cast Nat.div_mul_cancel (Nat.dvd_of_mod_eq_zero h.1)
      unfold value
      dsimp only
      rw [zpow_add_one₀ (by norm_num), ← hdigits]
      ring
    · rfl

theorem toBits_of_onGrid? {bits num den : Nat} {exponent : Int} {d : Decimal}
    (h : onGrid? bits num den exponent = some d) : d.toBits = bits := by
  unfold onGrid? at h
  dsimp only at h
  split at h
  · next hlower hupper =>
    split at h
    · cases h
      exact beq_iff_eq.mp hlower
    · cases h
      exact beq_iff_eq.mp hupper
  · next hlower _ =>
    cases h
    exact beq_iff_eq.mp hlower
  · next _ hupper =>
    cases h
    exact beq_iff_eq.mp hupper
  · cases h

/-- The shortest decimal of a finite double reads back as the double. -/
theorem toBits_shortest {bits : Nat} (h : bits < infinityBits) : (shortest bits).toBits = bits := by
  unfold shortest
  dsimp only
  rw [Decimal.toBits_congr (Decimal.value_strip 800 _)]
  cases hfound : (List.range 17).findSome? fun (n : Nat) =>
      onGrid? bits (Dyadic.ofBits bits).numerator (Dyadic.ofBits bits).denominator
        (leadingExponent (Dyadic.ofBits bits).numerator (Dyadic.ofBits bits).denominator - n) with
  | none => exact Decimal.toBits_of_value_eq h (Dyadic.ofBits bits).value_toDecimal
  | some d =>
    obtain ⟨n, -, hgrid⟩ := List.exists_of_findSome?_eq_some hfound
    exact toBits_of_onGrid? hgrid

end Treewalk.Number
