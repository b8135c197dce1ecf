import Mathlib.Algebra.Order.AbsoluteValue.Basic
import Mathlib.Tactic.Linarith
import Treewalk.Proofs.Number.Rounding

/-! # The nearest double

    `IsNearest` says what it means to round a value to a double, without a procedure: no
    other double is nearer to it, and if another one is as near, the last bit is zero.
    There is exactly one such double for every value, and it is the one that a fraction is
    rounded to (`nearest_eq_iff`).  Rounding keeps the order of values. -/

namespace Treewalk.Number

/-! ### Values of doubles -/

/-- The value of the double with the given magnitude bits.  For the bits of infinity it is
    the power of two behind the greatest finite double. -/
def magnitudeValue (bits : Nat) : ℚ := (Dyadic.ofBits bits).value

theorem ofBits_subnormal {m : Nat} (hm : m < hiddenBit) :
    Dyadic.ofBits m = ⟨m, leastExponent⟩ := by
  unfold Dyadic.ofBits
  dsimp only
  rw [Nat.div_eq_of_lt hm, if_pos rfl, Nat.mod_eq_of_lt hm]

theorem ofBits_normal (k : Nat) {f : Nat} (hf : f < hiddenBit) :
    Dyadic.ofBits ((k + 1) * hiddenBit + f) = ⟨hiddenBit + f, leastExponent + k⟩ := by
  have hpos : 0 < hiddenBit := by decide
  have hfield : ((k + 1) * hiddenBit + f) / hiddenBit = k + 1 := by
    rw [Nat.mul_comm, Nat.mul_add_div hpos, Nat.div_eq_of_lt hf, Nat.add_zero]
  have hfraction : ((k + 1) * hiddenBit + f) % hiddenBit = f := by
    rw [Nat.mul_comm, Nat.mul_add_mod, Nat.mod_eq_of_lt hf]
  unfold Dyadic.ofBits
  dsimp only
  rw [hfield, hfraction, if_neg (Nat.succ_ne_zero k), Nat.add_sub_cancel]

/-- The place of the last bit of the doubles with exponent field `k + 1`; those with field
    zero have the same last place as those with field one. -/
def lastUnit (k : Nat) : ℚ := 2 ^ (leastExponent + k)

theorem lastUnit_pos (k : Nat) : 0 < lastUnit k := zpow_pos two_pos _

theorem lastUnit_add (k j : Nat) : lastUnit (k + j) = 2 ^ j * lastUnit k := by
  unfold lastUnit
  rw [Nat.cast_add, ← Int.add_assoc, zpow_add₀ two_ne_zero, zpow_natCast, mul_comm]

/-- A mantissa may also be one too great for its exponent: the carry goes to the exponent,
    and the value is the same. -/
theorem magnitudeValue_fields {k m : Nat} (hm : m ≤ 2 * hiddenBit)
    (hnormal : k = 0 ∨ hiddenBit ≤ m) :
    magnitudeValue (k * hiddenBit + m) = m * lastUnit k := by
  unfold magnitudeValue
  rcases Nat.lt_or_ge m hiddenBit with hlt | hge
  · obtain rfl : k = 0 := hnormal.resolve_right (Nat.not_le.mpr hlt)
    rw [Nat.zero_mul, Nat.zero_add, ofBits_subnormal hlt]
    simp [Dyadic.value, lastUnit]
  · obtain ⟨f, rfl⟩ := Nat.exists_eq_add_of_le hge
    rw [← Nat.add_assoc, ← Nat.succ_mul]
    rcases Nat.lt_or_ge f hiddenBit with hf | hf
    · rw [Nat.succ_eq_add_one, ofBits_normal k hf]
      rfl
    · obtain rfl : f = hiddenBit := by omega
      have hcarry : k.succ * hiddenBit + hiddenBit = (k + 1 + 1) * hiddenBit + 0 := by
        rw [Nat.add_zero, Nat.succ_mul (k + 1)]
      have hunit := lastUnit_add k 1
      rw [hcarry, ofBits_normal (k + 1) (by decide)]
      show ((hiddenBit + 0 : Nat) : ℚ) * lastUnit (k + 1) = _
      rw [hunit]
      push_cast
      ring

/-- The exponent and the mantissa of a double. -/
theorem exists_fields (bits : Nat) :
    ∃ k m, bits = k * hiddenBit + m ∧ m < 2 * hiddenBit ∧ (k = 0 ∨ hiddenBit ≤ m) := by
  have hsplit := Nat.div_add_mod' bits hiddenBit
  have hfraction : bits % hiddenBit < hiddenBit := Nat.mod_lt bits (by decide)
  rcases Nat.eq_zero_or_pos (bits / hiddenBit) with hzero | hpos
  · rw [hzero] at hsplit
    exact ⟨0, bits, by omega, by omega, .inl rfl⟩
  · obtain ⟨k, hk⟩ := Nat.exists_eq_add_of_le' hpos
    rw [hk, Nat.succ_mul] at hsplit
    exact ⟨k, hiddenBit + bits % hiddenBit, by omega, by omega, .inr (Nat.le_add_right _ _)⟩

/-- The bits of a double grow with its value. -/
theorem magnitudeValue_strictMono : StrictMono magnitudeValue := by
  refine strictMono_nat_of_lt_succ fun bits => ?_
  obtain ⟨k, m, rfl, hm, hnormal⟩ := exists_fields bits
  have hnext := magnitudeValue_fields (k := k) (m := m + 1) hm (by omega)
  rw [magnitudeValue_fields hm.le hnormal, Nat.add_assoc, hnext, Nat.cast_succ, add_mul, one_mul]
  exact lt_add_of_pos_right _ (lastUnit_pos k)

theorem magnitudeValue_zero : magnitudeValue 0 = 0 := by
  rw [magnitudeValue, ofBits_subnormal (by decide)]
  simp [Dyadic.value]

theorem magnitudeValue_pos {bits : Nat} (h : 0 < bits) : 0 < magnitudeValue bits := by
  have := magnitudeValue_strictMono h
  rwa [magnitudeValue_zero] at this

/-! ### The nearest integer -/

/-- A fraction is its quotient and the rest behind it. -/
theorem div_eq_add_rest (num : Nat) {den : Nat} (hden : 0 < den) :
    (num : ℚ) / den = (num / den : Nat) + ((num % den : Nat) : ℚ) / den := by
  have hden' : (den : ℚ) ≠ 0 := by exact_mod_cast hden.ne'
  rw [div_eq_iff hden', add_mul, div_mul_cancel₀ _ hden', mul_comm]
  exact_mod_cast (Nat.div_add_mod num den).symm

/-- A quotient is rounded by half a unit at most, and by half a unit only to an even
    number. -/
theorem roundDiv_spec (num : Nat) {den : Nat} (hden : 0 < den) :
    |(num : ℚ) / den - roundDiv num den| ≤ 1 / 2 ∧
      (|(num : ℚ) / den - roundDiv num den| = 1 / 2 → roundDiv num den % 2 = 0) := by
  have hden' : (0 : ℚ) < den := by exact_mod_cast hden
  have hrest : (num % den : Nat) < den := Nat.mod_lt num hden
  have hquotient := div_eq_add_rest num hden
  have hlow : (0 : ℚ) ≤ ((num % den : Nat) : ℚ) / den := by positivity
  unfold roundDiv
  dsimp only
  split
  · next hdown =>
    have hhalf : ((num % den : Nat) : ℚ) / den ≤ 1 / 2 := by
      rw [div_le_div_iff₀ hden' two_pos]
      have hdouble : num % den * 2 ≤ 1 * den := by omega
      exact_mod_cast hdouble
    rw [hquotient, add_sub_cancel_left, abs_of_nonneg hlow]
    refine ⟨hhalf, fun htie => ?_⟩
    rw [div_eq_div_iff hden'.ne' two_ne_zero] at htie
    have hdouble : num % den * 2 = 1 * den := by exact_mod_cast htie
    omega
  · next hup =>
    have hhalf : 1 / 2 ≤ ((num % den : Nat) : ℚ) / den := by
      rw [div_le_div_iff₀ two_pos hden']
      have hdouble : 1 * den ≤ num % den * 2 := by omega
      exact_mod_cast hdouble
    have hlt : ((num % den : Nat) : ℚ) / den < 1 := by
      rw [div_lt_one hden']
      exact_mod_cast hrest
    have hdistance : (num : ℚ) / den - (num / den + 1 : Nat) =
        -(1 - ((num % den : Nat) : ℚ) / den) := by
      rw [hquotient]
      push_cast
      ring
    rw [hdistance, abs_neg, abs_of_pos (by linarith)]
    refine ⟨by linarith, fun htie => ?_⟩
    have htie' : ((num % den : Nat) : ℚ) / den = 1 / 2 := by linarith
    rw [div_eq_div_iff hden'.ne' two_ne_zero] at htie'
    have hdouble : num % den * 2 = 1 * den := by exact_mod_cast htie'
    omega

/-- The integer that a value is rounded to is as near as any other, and if another one is
    as near, it is even. -/
theorem near_of_half {x : ℚ} {m : Nat} (hnear : |x - m| ≤ 1 / 2)
    (heven : |x - m| = 1 / 2 → m % 2 = 0) (j : Nat) :
    |x - m| ≤ |x - j| ∧ (|x - j| = |x - m| → j = m ∨ m % 2 = 0) := by
  by_cases hj : j = m
  · subst hj
    exact ⟨le_rfl, fun _ => .inl rfl⟩
  · have hapart : (1 : ℚ) ≤ |(m : ℚ) - j| := by
      have hint : (1 : ℤ) ≤ |(m : ℤ) - j| := Int.one_le_abs (by omega)
      exact_mod_cast hint
    have htriangle : |(m : ℚ) - j| ≤ |x - m| + |x - j| := by
      rw [abs_sub_comm x m]
      exact abs_sub_le _ _ _
    refine ⟨by linarith, fun htie => .inr (heven ?_)⟩
    linarith

/-! ### The nearest double -/

/-- Of the doubles that are not negative, infinity included, the one with magnitude bits
    `bits` is nearest to the value; if another one is as near, the last bit of this one is
    zero. -/
structure IsNearest (q : ℚ) (bits : Nat) : Prop where
  le_infinity : bits ≤ infinityBits
  near : ∀ other ≤ infinityBits, |q - magnitudeValue bits| ≤ |q - magnitudeValue other|
  even : ∀ other ≤ infinityBits, |q - magnitudeValue other| = |q - magnitudeValue bits| →
    other = bits ∨ bits % 2 = 0

theorem two_mul_hiddenBit : 2 * (hiddenBit : ℚ) = 2 ^ (53 : ℤ) := by
  rw [hiddenBit_eq]
  norm_num

/-- The last place of a fraction is that of a double whose mantissa has all its bits, or it
    is the last place of all. -/
theorem lastPlace_spec {num den : Nat} (hnum : 0 < num) (hden : 0 < den) :
    ∃ k : Nat, lastPlace num den = leastExponent + k ∧
      (num : ℚ) / den < 2 * hiddenBit * lastUnit k ∧
      (k = 0 ∨ hiddenBit * lastUnit k ≤ (num : ℚ) / den) := by
  have hvalue : (0 : ℚ) < num / den := div_pos (by exact_mod_cast hnum) (by exact_mod_cast hden)
  have hbits : ((fractionBits : Nat) : ℤ) = 52 := rfl
  have hlow := Int.zpow_log_le_self one_lt_two hvalue
  have hhigh := Int.lt_zpow_succ_log_self one_lt_two ((num : ℚ) / den)
  rw [← floorLog2_eq hnum hden] at hlow hhigh
  have hunit (k : Nat) : 2 * hiddenBit * lastUnit k = 2 ^ (leastExponent + k + 53) := by
    rw [two_mul_hiddenBit, lastUnit, ← zpow_add₀ two_ne_zero, Int.add_comm]
  refine ⟨(lastPlace num den - leastExponent).toNat, by unfold lastPlace; omega, ?_, ?_⟩
  · rw [hunit]
    refine hhigh.trans_le (zpow_le_zpow_right₀ one_le_two ?_)
    unfold lastPlace
    omega
  · by_cases hleast : floorLog2 num den - fractionBits ≤ leastExponent
    · left
      unfold lastPlace
      omega
    · right
      have hplace : leastExponent + (lastPlace num den - leastExponent).toNat + 53 =
          floorLog2 num den + 1 := by
        unfold lastPlace
        omega
      have hdouble := hunit (lastPlace num den - leastExponent).toNat
      rw [hplace, zpow_add_one₀ two_ne_zero] at hdouble
      push_cast at hlow
      linarith

/-- Scaling a fraction by a power is dividing its value by one. -/
theorem scaled_eq_div {b : Nat} (hb : 0 < b) (num den : Nat) (e : ℤ) :
    ((num * Nat.pow b (-e).toNat : Nat) : ℚ) / (den * Nat.pow b e.toNat : Nat) =
      num / den / (b : ℚ) ^ e := by
  rw [zpow_eq_div hb, Nat.cast_mul, Nat.cast_mul, div_div_eq_mul_div, div_mul_eq_mul_div, div_div]
  rfl

/-- How a fraction is rounded when there is no greatest exponent. -/
theorem exists_nearest_fields {num den : Nat} (hnum : 0 < num) (hden : 0 < den) :
    ∃ k m, nearest num den = min (k * hiddenBit + m) infinityBits ∧ m ≤ 2 * hiddenBit ∧
      (k = 0 ∨ hiddenBit * lastUnit k ≤ (num : ℚ) / den) ∧
      |(num : ℚ) / den / lastUnit k - m| ≤ 1 / 2 ∧
      (|(num : ℚ) / den / lastUnit k - m| = 1 / 2 → m % 2 = 0) := by
  obtain ⟨k, hk, hhigh, hlow⟩ := lastPlace_spec hnum hden
  have hscale : 0 < den * Nat.pow 2 (leastExponent + k).toNat :=
    Nat.mul_pos hden (Nat.pow_pos (by decide))
  obtain ⟨hnear, heven⟩ :=
    roundDiv_spec (num * Nat.pow 2 (-(leastExponent + k)).toNat) hscale
  have hunit : (2 : ℚ) ^ (leastExponent + k) = lastUnit k := rfl
  rw [scaled_eq_div two_pos, Nat.cast_ofNat, hunit] at hnear heven
  have hfield : (leastExponent + k - leastExponent).toNat = k := by omega
  unfold nearest
  rw [if_neg hnum.ne']
  dsimp only
  rw [hk, hfield]
  generalize roundDiv _ _ = m at hnear heven ⊢
  refine ⟨k, m, rfl, ?_, hlow, hnear, heven⟩
  rw [← div_lt_iff₀ (lastUnit_pos k)] at hhigh
  have hm : (m : ℚ) < (2 * hiddenBit + 1 : Nat) := by
    push_cast
    linarith [(abs_le.mp hnear).1]
  exact Nat.lt_succ_iff.mp (by exact_mod_cast hm)

/-- Where the unit is a power of two, the double with an integral mantissa next to a value
    is as near as any other. -/
theorem near_fields {q : ℚ} {k m : Nat} (hm : m ≤ 2 * hiddenBit)
    (hnormal : k = 0 ∨ hiddenBit ≤ m) (hlow : k = 0 ∨ hiddenBit * lastUnit k ≤ q)
    (hnear : |q / lastUnit k - m| ≤ 1 / 2) (heven : |q / lastUnit k - m| = 1 / 2 → m % 2 = 0)
    (other : Nat) :
    |q - magnitudeValue (k * hiddenBit + m)| ≤ |q - magnitudeValue other| ∧
      (|q - magnitudeValue other| = |q - magnitudeValue (k * hiddenBit + m)| →
        other = k * hiddenBit + m ∨ m % 2 = 0) := by
  have hunit := lastUnit_pos k
  -- multiples of the unit are as far from the value as integers are from the quotient
  have hscale (j : Nat) : |q - j * lastUnit k| = |q / lastUnit k - j| * lastUnit k := by
    rw [← abs_of_pos hunit, ← abs_mul, abs_of_pos hunit, sub_mul, div_mul_cancel₀ _ hunit.ne']
  have hinteger (j : Nat) : |q - m * lastUnit k| ≤ |q - j * lastUnit k| ∧
      (|q - j * lastUnit k| = |q - m * lastUnit k| → j = m ∨ m % 2 = 0) := by
    obtain ⟨hle, htie⟩ := near_of_half hnear heven j
    rw [hscale, hscale]
    exact ⟨mul_le_mul_of_nonneg_right hle hunit.le,
      fun h => htie (mul_right_cancel₀ hunit.ne' h)⟩
  rw [magnitudeValue_fields hm hnormal]
  obtain ⟨k', m', rfl, hm', hnormal'⟩ := exists_fields other
  rcases Nat.lt_or_ge k' k with hlt | hge
  · -- a double with a smaller exponent lies below the least one with this exponent
    have hlow := hlow.resolve_left (by omega)
    have hbelow : magnitudeValue (k' * hiddenBit + m') < hiddenBit * lastUnit k := by
      have hzero := magnitudeValue_fields (k := k) (m := hiddenBit) (by omega) (.inr le_rfl)
      rw [← hzero]
      apply magnitudeValue_strictMono
      have hmul := Nat.mul_le_mul_right hiddenBit hlt
      rw [Nat.succ_mul] at hmul
      omega
    have hfar : |q - hiddenBit * lastUnit k| < |q - magnitudeValue (k' * hiddenBit + m')| := by
      rw [abs_of_nonneg (by linarith), abs_of_nonneg (by linarith)]
      linarith
    have hle := (hinteger hiddenBit).1
    exact ⟨(hle.trans_lt hfar).le, fun htie => absurd htie (hle.trans_lt hfar).ne'⟩
  · -- all others are multiples of the unit
    obtain ⟨j, rfl⟩ := Nat.exists_eq_add_of_le hge
    have hmultiple : magnitudeValue ((k + j) * hiddenBit + m') =
        (2 ^ j * m' : Nat) * lastUnit k := by
      rw [magnitudeValue_fields hm'.le hnormal', lastUnit_add]
      push_cast
      ring
    obtain ⟨hle, htie⟩ := hinteger (2 ^ j * m')
    rw [← hmultiple] at hle htie
    refine ⟨hle, fun h => (htie h).imp_left fun hsame => ?_⟩
    apply magnitudeValue_strictMono.injective
    rw [hmultiple, hsame, magnitudeValue_fields hm hnormal]

theorem fields_mod_two (k m : Nat) : (k * hiddenBit + m) % 2 = m % 2 := by
  have heven : hiddenBit % 2 = 0 := by decide
  rw [Nat.add_mod, Nat.mul_mod, heven, Nat.mul_zero, Nat.zero_mod, Nat.zero_add, Nat.mod_mod]

/-- A value that is nearer to the greater of two is not below the middle between them. -/
theorem midpoint_le {q a b : ℚ} (hab : a < b) (h : |q - b| ≤ |q - a|) : (a + b) / 2 ≤ q := by
  have hsquare := sq_le_sq.mpr h
  by_contra hbelow
  have hpos : 0 < (b - a) * (a + b - 2 * q) := mul_pos (by linarith) (by linarith)
  linarith

theorem le_midpoint {q a b : ℚ} (hab : a < b) (h : |q - a| ≤ |q - b|) : q ≤ (a + b) / 2 := by
  have hsquare := sq_le_sq.mpr h
  by_contra habove
  have hpos : 0 < (b - a) * (2 * q - (a + b)) := mul_pos (by linarith) (by linarith)
  linarith

theorem isNearest_zero : IsNearest 0 0 := by
  refine ⟨Nat.zero_le _, fun other _ => ?_, fun other _ _ => .inr rfl⟩
  rw [magnitudeValue_zero, sub_zero, abs_zero]
  exact abs_nonneg _

/-- Infinity is the nearest to all that is beyond it. -/
theorem isNearest_infinity {q : ℚ} (h : magnitudeValue infinityBits ≤ q) :
    IsNearest q infinityBits := by
  have hbelow {other : Nat} (hother : other ≤ infinityBits) :
      |q - magnitudeValue other| = q - magnitudeValue other := by
    have hle := magnitudeValue_strictMono.monotone hother
    exact abs_of_nonneg (by linarith)
  refine ⟨le_rfl, fun other hother => ?_, fun other hother htie => .inl ?_⟩
  · have hle := magnitudeValue_strictMono.monotone hother
    rw [hbelow hother, hbelow le_rfl]
    linarith
  · rw [hbelow hother, hbelow le_rfl] at htie
    exact magnitudeValue_strictMono.injective (by linarith)

/-- A fraction is rounded to the nearest double. -/
theorem isNearest_nearest (num : Nat) {den : Nat} (hden : 0 < den) :
    IsNearest (num / den) (nearest num den) := by
  rcases Nat.eq_zero_or_pos num with rfl | hnum
  · rw [Nat.cast_zero, zero_div]
    exact isNearest_zero
  · obtain ⟨k, m, hbits, hm, hlow, hnear, heven⟩ := exists_nearest_fields hnum hden
    have hnormal : k = 0 ∨ hiddenBit ≤ m := by
      refine hlow.imp_right fun hge => ?_
      rw [← le_div_iff₀ (lastUnit_pos k)] at hge
      have hm' : (hiddenBit : ℚ) < (m + 1 : Nat) := by
        push_cast
        linarith [(abs_le.mp hnear).2]
      exact Nat.lt_succ_iff.mp (by exact_mod_cast hm')
    have hall := near_fields hm hnormal hlow hnear heven
    rw [hbits]
    rcases Nat.lt_or_ge infinityBits (k * hiddenBit + m) with hlt | hle
    · have hless := magnitudeValue_strictMono hlt
      rw [Nat.min_eq_right hlt.le]
      refine isNearest_infinity ?_
      linarith [midpoint_le hless (hall infinityBits).1]
    · rw [Nat.min_eq_left hle]
      refine ⟨hle, fun other _ => (hall other).1, fun other _ htie => ?_⟩
      rw [fields_mod_two]
      exact (hall other).2 htie

/-! ### There is one nearest double -/

section IsNearest

variable {q q' : ℚ} {a b : Nat}

/-- Two doubles that are nearest to a value are the same: if they were not, the last bits
    of both would be zero, so there would be one between them. -/
theorem IsNearest.unique (ha : IsNearest q a) (hb : IsNearest q b) : a = b := by
  have hlt {a b : Nat} (ha : IsNearest q a) (hb : IsNearest q b) : ¬ a < b := by
    intro hab
    have hab' := magnitudeValue_strictMono hab
    have hlow := midpoint_le hab' (hb.near a ha.le_infinity)
    have hhigh := le_midpoint hab' (ha.near b hb.le_infinity)
    have htie : |q - magnitudeValue b| = |q - magnitudeValue a| :=
      le_antisymm (hb.near a ha.le_infinity) (ha.near b hb.le_infinity)
    have haeven := (ha.even b hb.le_infinity htie).resolve_left hab.ne'
    have hbeven := (hb.even a ha.le_infinity htie.symm).resolve_left hab.ne
    have hnext : a + 1 < b := by omega
    have hnextLow := magnitudeValue_strictMono (Nat.lt_succ_self a)
    have hnextHigh := magnitudeValue_strictMono hnext
    have hcloser : |q - magnitudeValue (a + 1)| < |q - magnitudeValue a| := by
      rw [abs_of_nonneg (by linarith : 0 ≤ q - magnitudeValue a), abs_lt]
      constructor <;> linarith
    exact absurd (ha.near (a + 1) (by have := hb.le_infinity; omega)) (not_le.mpr hcloser)
  exact Nat.le_antisymm (Nat.not_lt.mp (hlt hb ha)) (Nat.not_lt.mp (hlt ha hb))

/-- Rounding keeps the order. -/
theorem IsNearest.mono (hq : q ≤ q') (ha : IsNearest q a) (hb : IsNearest q' b) : a ≤ b := by
  by_contra hba
  have hba' := magnitudeValue_strictMono (Nat.not_le.mp hba)
  have hlow := midpoint_le hba' (ha.near b hb.le_infinity)
  have hhigh := le_midpoint hba' (hb.near a ha.le_infinity)
  obtain rfl : q = q' := by linarith
  exact hba (ha.unique hb).le

/-- The value of a double is rounded to the double. -/
theorem isNearest_self (h : a ≤ infinityBits) : IsNearest (magnitudeValue a) a where
  le_infinity := h
  near other _ := by
    rw [sub_self, abs_zero]
    exact abs_nonneg _
  even other _ htie := by
    rw [sub_self, abs_zero, abs_eq_zero, sub_eq_zero] at htie
    exact .inl (magnitudeValue_strictMono.injective htie.symm)

/-- Rounding a fraction finds the one double that is nearest to it. -/
theorem nearest_eq_iff (num : Nat) {den : Nat} (hden : 0 < den) :
    nearest num den = a ↔ IsNearest (num / den) a := by
  constructor
  · rintro rfl
    exact isNearest_nearest num hden
  · exact (isNearest_nearest num hden).unique

/-- A decimal is read as the one double that is nearest to it. -/
theorem Decimal.toBits_eq_iff (d : Decimal) : d.toBits = a ↔ IsNearest d.value a := by
  rw [d.value_eq]
  exact nearest_eq_iff d.numerator d.denominator_pos

end IsNearest

end Treewalk.Number
