import Mathlib.Algebra.Order.Floor.Semifield
import Mathlib.Data.Int.Log
import Mathlib.Data.Nat.Log
import Treewalk.Number.Layout
import Treewalk.Proofs.Number.Nearest

/-! # Shortest decimals are shortest

    The digits of a double are searched for on finer and finer grids, and on each grid only
    the two decimals next to the value are tried.  That is enough: whatever decimal reads
    back, one of the two on the grid with as many digits lies between it and the value, and
    rounding keeps the order.  Seventeen digits are always enough, so the search does not
    fail.  Of all decimals that read back, the one found has the fewest digits, and among
    those with as few it is nearest to the value (`isShortest_shortest`). -/

namespace Treewalk.Number

/-! ### The first digit -/

/-- How many digits the decimal is written with. -/
def Decimal.size (d : Decimal) : Nat := (Layout.digits d.digits).length

theorem Decimal.size_le_iff {d : Decimal} {k : Nat} (hk : 0 < k) :
    d.size ≤ k ↔ d.digits < 10 ^ k :=
  Nat.length_toDigits_le_iff (by decide) hk

theorem Decimal.size_pos (d : Decimal) : 0 < d.size := Nat.length_toDigits_pos

/-- A number has one digit more than its logarithm. -/
theorem length_toDigits {n : Nat} (hn : 0 < n) : (Nat.toDigits 10 n).length = Nat.log 10 n + 1 := by
  have hlength {k : Nat} (hk : 0 < k) : (Nat.toDigits 10 n).length ≤ k ↔ n < 10 ^ k :=
    Nat.length_toDigits_le_iff (by decide) hk
  have hpos := Nat.length_toDigits_pos (b := 10) (n := n)
  have hlow := Nat.pow_log_le_self 10 hn.ne'
  apply Nat.le_antisymm
  · exact (hlength (Nat.succ_pos _)).mpr (Nat.lt_pow_succ_log_self (by decide) n)
  · by_contra hshort
    have hlog : 0 < Nat.log 10 n := by omega
    exact hlow.not_gt ((hlength hlog).mp (by omega))

theorem leadingZeros_spec {n num den : Nat} (hlt : num < den) (hbound : den ≤ num * 10 ^ n) :
    num * 10 ^ leadingZeros n num den < den ∧ den ≤ num * 10 ^ (leadingZeros n num den + 1) := by
  induction n generalizing num with
  | zero => omega
  | succ n ih =>
    unfold leadingZeros
    by_cases hfirst : den ≤ num * 10
    · rw [if_pos hfirst]
      omega
    · rw [if_neg hfirst]
      have hrec := @ih (num * 10) (by omega) (by rw [Nat.mul_assoc, ← Nat.pow_succ']; exact hbound)
      rw [Nat.mul_assoc, Nat.mul_assoc, ← Nat.pow_succ', ← Nat.pow_succ'] at hrec
      exact hrec

/-- The exponent of the first digit is the logarithm of the value. -/
theorem leadingExponent_eq {num den : Nat} (hnum : 0 < num) (hden : 0 < den)
    (hbound : den ≤ num * 10 ^ 400) :
    leadingExponent num den = Int.log 10 ((num : ℚ) / den) := by
  have hnum' : (0 : ℚ) < num := by exact_mod_cast hnum
  have hden' : (0 : ℚ) < den := by exact_mod_cast hden
  have hpos : (0 : ℚ) < num / den := div_pos hnum' hden'
  unfold leadingExponent
  by_cases hone : den ≤ num
  · have hge : (1 : ℚ) ≤ num / den := (one_le_div hden').mpr (by exact_mod_cast hone)
    rw [if_pos hone, Int.log_of_one_le_right 10 hge, Nat.floor_div_eq_div,
      length_toDigits (Nat.div_pos hone hden)]
    omega
  · rw [if_neg hone]
    obtain ⟨hhigh, hlow⟩ := leadingZeros_spec (not_le.mp hone) hbound
    generalize leadingZeros 400 num den = z at hhigh hlow ⊢
    have hzpow (n : Nat) : ((10 : Nat) : ℚ) ^ (-(n : ℤ)) = 1 / (10 ^ n : Nat) := by
      rw [zpow_neg, zpow_natCast, one_div, Nat.cast_pow]
    have hlog₁ : -((z + 1 : Nat) : ℤ) ≤ Int.log 10 ((num : ℚ) / den) := by
      rw [← Int.zpow_le_iff_le_log (by decide) hpos, hzpow,
        div_le_div_iff₀ (by positivity) hden', one_mul]
      exact_mod_cast hlow
    have hlog₂ : Int.log 10 ((num : ℚ) / den) < -(z : ℤ) := by
      rw [← Int.lt_zpow_iff_log_lt (by decide) hpos, hzpow,
        div_lt_div_iff₀ hden' (by positivity), one_mul]
      exact_mod_cast hhigh
    omega

/-! ### Order -/

/-- Decimals are read in their order. -/
theorem Decimal.toBits_mono {d d' : Decimal} (h : d.value ≤ d'.value) : d.toBits ≤ d'.toBits :=
  IsNearest.mono h (d.toBits_eq_iff.mp rfl) (d'.toBits_eq_iff.mp rfl)

section Between

variable {bits : Nat} {d d' : Decimal}

/-- A decimal between a double and another decimal that is read as this double is read as
    it too. -/
theorem toBits_of_above (hbits : bits ≤ infinityBits) (h : d'.toBits = bits)
    (hlow : magnitudeValue bits ≤ d.value) (hhigh : d.value ≤ d'.value) : d.toBits = bits := by
  apply Nat.le_antisymm
  · rw [← h]
    exact Decimal.toBits_mono hhigh
  · exact (isNearest_self hbits).mono hlow (d.toBits_eq_iff.mp rfl)

theorem toBits_of_below (hbits : bits ≤ infinityBits) (h : d'.toBits = bits)
    (hhigh : d.value ≤ magnitudeValue bits) (hlow : d'.value ≤ d.value) : d.toBits = bits := by
  apply Nat.le_antisymm
  · exact IsNearest.mono hhigh (d.toBits_eq_iff.mp rfl) (isNearest_self hbits)
  · rw [← h]
    exact Decimal.toBits_mono hlow

end Between

/-! ### Grids -/

/-- The last decimal on a grid that is not above a value. -/
def below (q : ℚ) (e : ℤ) : Decimal := ⟨⌊q / 10 ^ e⌋₊, e⟩

/-- The first decimal on a grid that is above a value. -/
def above (q : ℚ) (e : ℤ) : Decimal := ⟨⌊q / 10 ^ e⌋₊ + 1, e⟩

/-- The decimal is one of the two on a grid that a value lies between. -/
def IsNextTo (q : ℚ) (e : ℤ) (d : Decimal) : Prop := d = below q e ∨ d = above q e

/-- How far a value is from the grid point below it, in steps of the grid. -/
def gridRest (q : ℚ) (e : ℤ) : ℚ := q / 10 ^ e - ⌊q / 10 ^ e⌋₊

section Grids

variable {q : ℚ}

theorem gridStep_pos (e : ℤ) : (0 : ℚ) < 10 ^ e := zpow_pos (by norm_num) e

theorem gridRest_nonneg (hq : 0 ≤ q) (e : ℤ) : 0 ≤ gridRest q e :=
  sub_nonneg.mpr (Nat.floor_le (div_nonneg hq (gridStep_pos e).le))

theorem gridRest_lt_one (q : ℚ) (e : ℤ) : gridRest q e < 1 := by
  have := Nat.lt_floor_add_one (q / 10 ^ e)
  unfold gridRest
  linarith

theorem sub_value_below (q : ℚ) (e : ℤ) : q - (below q e).value = gridRest q e * 10 ^ e := by
  unfold Decimal.value below gridRest
  rw [sub_mul, div_mul_cancel₀ _ (gridStep_pos e).ne']

theorem value_above_sub (q : ℚ) (e : ℤ) :
    (above q e).value - q = (1 - gridRest q e) * 10 ^ e := by
  have hstep : (above q e).value = (below q e).value + 10 ^ e := by
    unfold Decimal.value below above
    push_cast
    ring
  have := sub_value_below q e
  linarith

theorem value_below_le (hq : 0 ≤ q) (e : ℤ) : (below q e).value ≤ q := by
  have hpos := mul_nonneg (gridRest_nonneg hq e) (gridStep_pos e).le
  have := sub_value_below q e
  linarith

theorem le_value_above (q : ℚ) (e : ℤ) : q ≤ (above q e).value := by
  have hpos : 0 ≤ (1 - gridRest q e) * 10 ^ e :=
    mul_nonneg (by linarith [gridRest_lt_one q e]) (gridStep_pos e).le
  have := value_above_sub q e
  linarith

/-- The distances of a value from the two grid points next to it. -/
theorem abs_sub_below (hq : 0 ≤ q) (e : ℤ) :
    |q - (below q e).value| = gridRest q e * 10 ^ e := by
  rw [abs_of_nonneg (sub_nonneg.mpr (value_below_le hq e)), sub_value_below]

theorem abs_sub_above (q : ℚ) (e : ℤ) :
    |q - (above q e).value| = (1 - gridRest q e) * 10 ^ e := by
  rw [abs_sub_comm, abs_of_nonneg (sub_nonneg.mpr (le_value_above q e)), value_above_sub]

/-- Up to half a step the point below is the nearer one, and from half a step on the point
    above is. -/
theorem below_nearer (hq : 0 ≤ q) {e : ℤ} (h : gridRest q e ≤ 1 / 2) :
    |q - (below q e).value| ≤ |q - (above q e).value| := by
  rw [abs_sub_below hq, abs_sub_above]
  exact mul_le_mul_of_nonneg_right (by linarith) (gridStep_pos e).le

theorem above_nearer (hq : 0 ≤ q) {e : ℤ} (h : 1 / 2 ≤ gridRest q e) :
    |q - (above q e).value| ≤ |q - (below q e).value| := by
  rw [abs_sub_below hq, abs_sub_above]
  exact mul_le_mul_of_nonneg_right (by linarith) (gridStep_pos e).le

/-- No decimal with a given number of digits lies strictly between the two points next to a
    value on the grid where the value has that many digits. -/
theorem outside_grid (hq : 0 < q) (d : Decimal) :
    d.value ≤ (below q (Int.log 10 q - (d.size - 1 : Nat))).value ∨
      (above q (Int.log 10 q - (d.size - 1 : Nat))).value ≤ d.value := by
  have hsize := d.size_pos
  generalize hgrid : Int.log 10 q - (d.size - 1 : Nat) = g
  by_cases hon : g ≤ d.exponent
  · -- the decimal is a point of the grid
    have hpoint : d.value = (d.digits * 10 ^ (d.exponent - g).toNat : Nat) * 10 ^ g := by
      have hexponent : (10 : ℚ) ^ d.exponent = 10 ^ (d.exponent - g).toNat * 10 ^ g := by
        rw [← zpow_natCast, ← zpow_add₀ (by norm_num)]
        congr 1
        omega
      rw [Decimal.value, hexponent]
      push_cast
      ring
    generalize d.digits * 10 ^ (d.exponent - g).toNat = n at hpoint
    rw [hpoint]
    by_cases hle : n ≤ ⌊q / 10 ^ g⌋₊
    · left
      exact mul_le_mul_of_nonneg_right (by exact_mod_cast hle) (gridStep_pos g).le
    · right
      exact mul_le_mul_of_nonneg_right (by exact_mod_cast not_le.mp hle) (gridStep_pos g).le
  · -- the decimal is less than the power of ten that the value begins with
    left
    have hdigits : (d.digits : ℚ) ≤ 10 ^ (d.size : ℤ) := by
      have := (Decimal.size_le_iff hsize).mp le_rfl
      exact_mod_cast this.le
    have hfirst : (10 : ℚ) ^ Int.log 10 q = (10 ^ (d.size - 1) : Nat) * 10 ^ g := by
      push_cast
      rw [← zpow_natCast, ← zpow_add₀ (by norm_num)]
      congr 1
      omega
    have hbelow : 10 ^ (d.size - 1) ≤ ⌊q / 10 ^ g⌋₊ := by
      have hlow := Int.zpow_log_le_self (b := 10) (by decide) hq
      apply Nat.le_floor
      rw [le_div_iff₀ (gridStep_pos g), ← hfirst]
      exact_mod_cast hlow
    calc d.value ≤ 10 ^ (d.size : ℤ) * 10 ^ d.exponent :=
          mul_le_mul_of_nonneg_right hdigits (gridStep_pos _).le
      _ = 10 ^ (d.size + d.exponent) := (zpow_add₀ (by norm_num) _ _).symm
      _ ≤ 10 ^ Int.log 10 q := zpow_le_zpow_right₀ (by norm_num) (by omega)
      _ = (10 ^ (d.size - 1) : Nat) * 10 ^ g := hfirst
      _ ≤ (below q g).value :=
          mul_le_mul_of_nonneg_right (by exact_mod_cast hbelow) (gridStep_pos g).le

/-- A point next to a value has as many digits as the value has on the grid, or it is the
    next power of ten. -/
theorem IsNextTo.digits_le (hq : 0 < q) {i : Nat} {d : Decimal}
    (h : IsNextTo q (Int.log 10 q - i) d) : d.digits ≤ 10 ^ (i + 1) := by
  have hfloor : ⌊q / 10 ^ (Int.log 10 q - i)⌋₊ < 10 ^ (i + 1) := by
    have hhigh := Int.lt_zpow_succ_log_self (b := 10) (by decide) q
    have hnext : (10 : ℚ) ^ (Int.log 10 q + 1) = 10 ^ (i + 1) * 10 ^ (Int.log 10 q - i) := by
      rw [← zpow_natCast, ← zpow_add₀ (by norm_num)]
      congr 1
      omega
    rw [Nat.floor_lt (div_nonneg hq.le (gridStep_pos _).le), div_lt_iff₀ (gridStep_pos _)]
    push_cast at hhigh ⊢
    rwa [← hnext]
  rcases h with rfl | rfl
  · exact hfloor.le
  · exact hfloor

end Grids

/-! ### The choice on a grid -/

section Choice

variable {bits num den : Nat} {e : ℤ} {d : Decimal}

theorem quotient_eq_floor (num den : Nat) (e : ℤ) :
    num * Nat.pow 10 (-e).toNat / (den * Nat.pow 10 e.toNat) = ⌊(num : ℚ) / den / 10 ^ e⌋₊ := by
  have hfloor := Nat.floor_div_eq_div (K := ℚ) (num * Nat.pow 10 (-e).toNat)
    (den * Nat.pow 10 e.toNat)
  rw [scaled_eq_div (by decide), Nat.cast_ofNat] at hfloor
  exact hfloor.symm

theorem rest_eq_gridRest (num : Nat) (hden : 0 < den) (e : ℤ) :
    ((num * Nat.pow 10 (-e).toNat % (den * Nat.pow 10 e.toNat) : Nat) : ℚ) /
        (den * Nat.pow 10 e.toNat : Nat) = gridRest (num / den) e := by
  have hbottom : 0 < den * Nat.pow 10 e.toNat := Nat.mul_pos hden (Nat.pow_pos (by decide))
  have hrest := div_eq_add_rest (num * Nat.pow 10 (-e).toNat) hbottom
  rw [scaled_eq_div (by decide), Nat.cast_ofNat, quotient_eq_floor] at hrest
  unfold gridRest
  linarith

/-- If nothing is found on a grid, neither point next to the value reads back. -/
theorem not_reads_of_onGrid? (h : onGrid? bits num den e = none)
    (hd : IsNextTo (num / den) e d) : d.toBits ≠ bits := by
  unfold onGrid? at h
  dsimp only at h
  rw [quotient_eq_floor] at h
  split at h
  · split at h <;> cases h
  · cases h
  · cases h
  · next hlower hupper =>
    rcases hd with rfl | rfl
    · exact beq_eq_false_iff_ne.mp hlower
    · exact beq_eq_false_iff_ne.mp hupper

/-- What is found on a grid is next to the value, and the other point next to it is not
    nearer, unless it does not read back. -/
theorem nearest_of_onGrid? (hden : 0 < den) (h : onGrid? bits num den e = some d) :
    IsNextTo (num / den) e d ∧ ∀ d', IsNextTo (num / den) e d' → d'.toBits = bits →
      |(num : ℚ) / den - d.value| ≤ |(num : ℚ) / den - d'.value| := by
  have hq : (0 : ℚ) ≤ num / den := by positivity
  have hbottom : 0 < den * Nat.pow 10 e.toNat := Nat.mul_pos hden (Nat.pow_pos (by decide))
  have hbottom' : (0 : ℚ) < (den * Nat.pow 10 e.toNat : Nat) := by exact_mod_cast hbottom
  have hrest := rest_eq_gridRest num hden e
  unfold onGrid? at h
  dsimp only at h
  rw [quotient_eq_floor] at h
  generalize num * Nat.pow 10 (-e).toNat % (den * Nat.pow 10 e.toNat) = rest at h hrest
  generalize den * Nat.pow 10 e.toNat = bottom at h hrest hbottom'
  split at h
  · -- both points read back, and the nearer one is taken
    split at h
    · next hdown =>
      cases h
      have hhalf : gridRest (num / den) e ≤ 1 / 2 := by
        rw [← hrest, div_le_div_iff₀ hbottom' two_pos]
        have hdouble : rest * 2 ≤ 1 * bottom := by omega
        exact_mod_cast hdouble
      refine ⟨.inl rfl, fun d' hd' _ => ?_⟩
      rcases hd' with rfl | rfl
      · exact le_rfl
      · exact below_nearer hq hhalf
    · next hup =>
      cases h
      have hhalf : 1 / 2 ≤ gridRest (num / den) e := by
        rw [← hrest, div_le_div_iff₀ two_pos hbottom']
        have hdouble : 1 * bottom ≤ rest * 2 := by omega
        exact_mod_cast hdouble
      refine ⟨.inr rfl, fun d' hd' _ => ?_⟩
      rcases hd' with rfl | rfl
      · exact above_nearer hq hhalf
      · exact le_rfl
  · next _ hupper =>
    cases h
    refine ⟨.inl rfl, fun d' hd' hread => ?_⟩
    rcases hd' with rfl | rfl
    · exact le_rfl
    · exact absurd hread (beq_eq_false_iff_ne.mp hupper)
  · next hlower _ =>
    cases h
    refine ⟨.inr rfl, fun d' hd' hread => ?_⟩
    rcases hd' with rfl | rfl
    · exact absurd hread (beq_eq_false_iff_ne.mp hlower)
    · exact le_rfl
  · cases h

end Choice

/-! ### Trailing zeros -/

theorem Decimal.digits_strip_le (n : Nat) (d : Decimal) : (d.strip n).digits ≤ d.digits := by
  induction n generalizing d with
  | zero => exact le_rfl
  | succ n ih =>
    unfold strip
    by_cases hzero : d.digits % 10 = 0 ∧ d.digits ≠ 0
    · rw [if_pos hzero]
      exact (ih _).trans (Nat.div_le_self _ _)
    · rw [if_neg hzero]

theorem Decimal.le_exponent_strip (n : Nat) (d : Decimal) : d.exponent ≤ (d.strip n).exponent := by
  induction n generalizing d with
  | zero => exact le_rfl
  | succ n ih =>
    unfold strip
    by_cases hzero : d.digits % 10 = 0 ∧ d.digits ≠ 0
    · rw [if_pos hzero]
      have := ih ⟨d.digits / 10, d.exponent + 1⟩
      dsimp only at this
      omega
    · rw [if_neg hzero]

/-- A power of ten has one digit without its zeros. -/
theorem Decimal.digits_strip_power {k n : Nat} (h : k ≤ n) (e : Int) :
    (Decimal.strip n ⟨10 ^ k, e⟩).digits ≤ 1 := by
  induction k generalizing n e with
  | zero => exact digits_strip_le n _
  | succ k ih =>
    obtain ⟨n, rfl⟩ := Nat.exists_eq_add_of_lt (show 0 < n by omega)
    have hzero : 10 ^ (k + 1) % 10 = 0 ∧ 10 ^ (k + 1) ≠ 0 :=
      ⟨by rw [Nat.pow_succ, Nat.mul_mod_left], (Nat.pow_pos (by decide)).ne'⟩
    have hrest : 10 ^ (k + 1) / 10 = 10 ^ k := by
      rw [Nat.pow_succ, Nat.mul_div_cancel _ (by decide)]
    rw [Nat.zero_add]
    unfold strip
    dsimp only
    rw [if_pos hzero, hrest]
    exact ih (by omega) _

theorem Decimal.size_strip_le {d : Decimal} {k n : Nat} (hk : 0 < k) (hkn : k ≤ n)
    (h : d.digits ≤ 10 ^ k) : (d.strip n).size ≤ k := by
  rw [size_le_iff hk]
  rcases h.lt_or_eq with hlt | heq
  · exact (digits_strip_le n d).trans_lt hlt
  · have hpower := digits_strip_power hkn d.exponent
    rw [← heq] at hpower
    exact hpower.trans_lt (Nat.one_lt_pow hk.ne' (by decide))

/-! ### Seventeen digits -/

/-- The gap between a double and the next one is a known part of the greater one. -/
theorem magnitudeValue_succ_le (bits : Nat) :
    magnitudeValue (bits + 1) ≤
      2 * hiddenBit * (magnitudeValue (bits + 1) - magnitudeValue bits) := by
  obtain ⟨k, m, rfl, hm, hnormal⟩ := exists_fields bits
  have hnext := magnitudeValue_fields (k := k) (m := m + 1) hm (by omega)
  have hm' : ((m + 1 : Nat) : ℚ) ≤ 2 * hiddenBit := by exact_mod_cast Nat.succ_le_of_lt hm
  have hunit := mul_le_mul_of_nonneg_right hm' (lastUnit_pos k).le
  rw [Nat.add_assoc, hnext, magnitudeValue_fields hm.le hnormal]
  push_cast at hunit ⊢
  linarith

theorem magnitudeValue_le_sub {a b : Nat} (h : a < b) :
    magnitudeValue b ≤ 2 * hiddenBit * (magnitudeValue b - magnitudeValue a) := by
  obtain ⟨c, rfl⟩ := Nat.exists_eq_add_of_lt h
  have hle : magnitudeValue a ≤ magnitudeValue (a + c) :=
    magnitudeValue_strictMono.monotone (Nat.le_add_right a c)
  have hscale : (0 : ℚ) ≤ 2 * hiddenBit := by positivity
  calc magnitudeValue (a + c + 1) ≤
        2 * hiddenBit * (magnitudeValue (a + c + 1) - magnitudeValue (a + c)) :=
          magnitudeValue_succ_le (a + c)
    _ ≤ 2 * hiddenBit * (magnitudeValue (a + c + 1) - magnitudeValue a) :=
          mul_le_mul_of_nonneg_left (by linarith) hscale

/-- So is the gap between two different doubles a known part of either. -/
theorem magnitudeValue_le_gap {bits other : Nat} (h : other ≠ bits) :
    magnitudeValue bits ≤ 2 * hiddenBit * |magnitudeValue bits - magnitudeValue other| := by
  rcases Nat.lt_or_gt_of_ne h with hlt | hgt
  · have hless := magnitudeValue_strictMono hlt
    rw [abs_of_pos (sub_pos.mpr hless)]
    exact magnitudeValue_le_sub hlt
  · have hless := magnitudeValue_strictMono hgt
    rw [abs_sub_comm, abs_of_pos (sub_pos.mpr hless)]
    exact hless.le.trans (magnitudeValue_le_sub hgt)

/-- What is closer to a double than half the gap to any other is rounded to it. -/
theorem isNearest_of_close {q : ℚ} {bits : Nat} (hbits : bits ≤ infinityBits)
    (h : 4 * hiddenBit * |q - magnitudeValue bits| < magnitudeValue bits) : IsNearest q bits := by
  have hcloser {other : Nat} (hother : other ≠ bits) :
      |q - magnitudeValue bits| < |q - magnitudeValue other| := by
    have hgap := magnitudeValue_le_gap hother
    have htriangle : |magnitudeValue bits - magnitudeValue other| ≤
        |q - magnitudeValue bits| + |q - magnitudeValue other| := by
      rw [abs_sub_comm q (magnitudeValue bits)]
      exact abs_sub_le _ _ _
    have hhidden : (0 : ℚ) < 2 * hiddenBit := by
      rw [hiddenBit_eq]
      norm_num
    have hscaled := mul_le_mul_of_nonneg_left htriangle hhidden.le
    have hless : 2 * hiddenBit * |q - magnitudeValue bits| <
        2 * hiddenBit * |q - magnitudeValue other| := by linarith
    exact lt_of_mul_lt_mul_left hless hhidden.le
  refine ⟨hbits, fun other _ => ?_, fun other _ htie => .inl ?_⟩
  · by_cases hother : other = bits
    · rw [hother]
    · exact (hcloser hother).le
  · by_contra hother
    exact (hcloser hother).ne' htie

section Hits

variable {bits : Nat}

/-- On the grid with seventeen digits one of the two points next to a double reads back. -/
theorem exists_nextTo_seventeen (hpos : 0 < magnitudeValue bits) (hbits : bits ≤ infinityBits) :
    ∃ d, IsNextTo (magnitudeValue bits) (Int.log 10 (magnitudeValue bits) - (16 : Nat)) d ∧
      d.toBits = bits := by
  have hlow := Int.zpow_log_le_self (b := 10) (by decide) hpos
  generalize hgrid : Int.log 10 (magnitudeValue bits) - (16 : Nat) = g
  have hstep := gridStep_pos g
  have hfirst : (10 : ℚ) ^ Int.log 10 (magnitudeValue bits) = 10 ^ 16 * 10 ^ g := by
    rw [← zpow_natCast, ← zpow_add₀ (by norm_num)]
    congr 1
    omega
  rw [Nat.cast_ofNat, hfirst] at hlow
  have hhidden : 4 * (hiddenBit : ℚ) < 2 * 10 ^ 16 := by
    rw [hiddenBit_eq]
    norm_num
  -- a point that is half a step away at most reads back
  have hread {d : Decimal} {t : ℚ} (ht : t ≤ 1 / 2)
      (hd : |magnitudeValue bits - d.value| = t * 10 ^ g) : d.toBits = bits := by
    rw [d.toBits_eq_iff]
    apply isNearest_of_close hbits
    rw [abs_sub_comm, hd]
    calc 4 * (hiddenBit : ℚ) * (t * 10 ^ g) ≤ 4 * hiddenBit * (1 / 2 * 10 ^ g) :=
          mul_le_mul_of_nonneg_left (mul_le_mul_of_nonneg_right ht hstep.le) (by positivity)
      _ = 4 * hiddenBit * (10 ^ g / 2) := by ring
      _ < 2 * 10 ^ 16 * (10 ^ g / 2) := mul_lt_mul_of_pos_right hhidden (half_pos hstep)
      _ = 10 ^ 16 * 10 ^ g := by ring
      _ ≤ magnitudeValue bits := hlow
  by_cases hhalf : gridRest (magnitudeValue bits) g ≤ 1 / 2
  · exact ⟨_, .inl rfl, hread hhalf (abs_sub_below hpos.le g)⟩
  · exact ⟨_, .inr rfl, hread (by linarith) (abs_sub_above _ g)⟩

/-- Whatever decimal reads back, a point next to the value on the grid with as many digits
    reads back too, and it is not farther away. -/
theorem exists_nextTo {d : Decimal} (hpos : 0 < magnitudeValue bits) (hbits : bits ≤ infinityBits)
    (hd : d.toBits = bits) :
    ∃ c, IsNextTo (magnitudeValue bits)
        (Int.log 10 (magnitudeValue bits) - (d.size - 1 : Nat)) c ∧
      c.toBits = bits ∧ |magnitudeValue bits - c.value| ≤ |magnitudeValue bits - d.value| := by
  rcases outside_grid hpos d with hle | hge
  · have hbelow := value_below_le hpos.le (Int.log 10 (magnitudeValue bits) - (d.size - 1 : Nat))
    refine ⟨_, .inl rfl, toBits_of_below hbits hd hbelow hle, ?_⟩
    rw [abs_of_nonneg (sub_nonneg.mpr hbelow), abs_of_nonneg (by linarith)]
    linarith
  · have habove := le_value_above (magnitudeValue bits)
      (Int.log 10 (magnitudeValue bits) - (d.size - 1 : Nat))
    refine ⟨_, .inr rfl, toBits_of_above hbits hd habove hge, ?_⟩
    rw [abs_sub_comm, abs_of_nonneg (sub_nonneg.mpr habove), abs_sub_comm,
      abs_of_nonneg (by linarith)]
    linarith

end Hits

/-! ### The search -/

/-- The decimal reads back, it is next to the value on the grid with index `i`, where no
    other that reads back is nearer, and on the coarser grids none reads back. -/
structure IsFirstHit (bits i : Nat) (d : Decimal) : Prop where
  reads : d.toBits = bits
  nextTo : IsNextTo (magnitudeValue bits) (Int.log 10 (magnitudeValue bits) - i) d
  nearest : ∀ c, IsNextTo (magnitudeValue bits) (Int.log 10 (magnitudeValue bits) - i) c →
    c.toBits = bits → |magnitudeValue bits - d.value| ≤ |magnitudeValue bits - c.value|
  coarser : ∀ j < i, ∀ c,
    IsNextTo (magnitudeValue bits) (Int.log 10 (magnitudeValue bits) - j) c → c.toBits ≠ bits

/-- The search through a range stops at the first hit. -/
theorem exists_of_findSome?_range {α : Type} {f : Nat → Option α} {n : Nat} {b : α}
    (h : (List.range n).findSome? f = some b) : ∃ i < n, f i = some b ∧ ∀ j < i, f j = none := by
  induction n with
  | zero => cases h
  | succ n ih =>
    rw [List.range_succ, List.findSome?_append] at h
    cases hfound : (List.range n).findSome? f with
    | none =>
      rw [hfound, Option.none_or, List.findSome?_singleton] at h
      refine ⟨n, Nat.lt_succ_self n, h, fun j hj => ?_⟩
      exact List.findSome?_eq_none_iff.mp hfound j (List.mem_range.mpr hj)
    | some a =>
      rw [hfound, Option.some_or] at h
      obtain ⟨i, hi, hhit, hfirst⟩ := ih (hfound.trans h)
      exact ⟨i, Nat.lt_succ_of_lt hi, hhit, hfirst⟩

theorem Dyadic.denominator_le {x : Dyadic} {n : Nat} (h : (-x.exponent).toNat ≤ 3 * n) :
    x.denominator ≤ 10 ^ n :=
  calc x.denominator ≤ 2 ^ (3 * n) := Nat.pow_le_pow_right (by decide) h
    _ = (2 ^ 3) ^ n := Nat.pow_mul 2 3 n
    _ ≤ 10 ^ n := Nat.pow_le_pow_left (by decide) n

/-- The bound on the zeros behind the point is great enough for every double. -/
theorem Dyadic.IsDouble.denominator_le {x : Dyadic} (h : x.IsDouble) (hpos : 0 < x.numerator) :
    x.denominator ≤ x.numerator * 10 ^ 400 := by
  have hexponent : (-x.exponent).toNat ≤ 3 * 400 := by
    have := h.leastExponent_le
    unfold leastExponent at this
    omega
  exact (Dyadic.denominator_le hexponent).trans (Nat.le_mul_of_pos_left _ hpos)

/-- The digits of a double are those of the first hit, and there is one among the first
    seventeen grids. -/
theorem exists_firstHit {bits : Nat} (hpos : 0 < bits) (hfinite : bits < infinityBits) :
    ∃ i d, i ≤ 16 ∧ IsFirstHit bits i d ∧ shortest bits = d.strip 800 := by
  have hvalue := magnitudeValue_pos hpos
  have hfraction : magnitudeValue bits =
      ((Dyadic.ofBits bits).numerator : ℚ) / (Dyadic.ofBits bits).denominator :=
    (Dyadic.ofBits bits).value_eq
  have hdouble := Dyadic.isDouble_ofBits bits
  have hden := (Dyadic.ofBits bits).denominator_pos
  have hnum : 0 < (Dyadic.ofBits bits).numerator := by
    by_contra hzero
    rw [hfraction, Nat.eq_zero_of_not_pos hzero, Nat.cast_zero, zero_div] at hvalue
    exact lt_irrefl _ hvalue
  have hlead := leadingExponent_eq hnum hden (hdouble.denominator_le hnum)
  unfold shortest
  dsimp only
  rw [hlead]
  generalize (Dyadic.ofBits bits).numerator = num at hfraction hden hnum
  generalize (Dyadic.ofBits bits).denominator = den at hfraction hden hnum
  cases hfound : (List.range 17).findSome? fun (n : Nat) =>
      onGrid? bits num den (Int.log 10 ((num : ℚ) / den) - n) with
  | none =>
    obtain ⟨d, hnext, hread⟩ := exists_nextTo_seventeen hvalue hfinite.le
    have hnone := List.findSome?_eq_none_iff.mp hfound 16 (by decide)
    rw [hfraction] at hnext
    exact absurd hread (not_reads_of_onGrid? hnone hnext)
  | some d =>
    obtain ⟨i, hi, hhit, hfirst⟩ := exists_of_findSome?_range hfound
    obtain ⟨hnext, hnearest⟩ := nearest_of_onGrid? hden hhit
    refine ⟨i, d, by omega, ⟨toBits_of_onGrid? hhit, ?_, ?_, ?_⟩, rfl⟩
    · rw [hfraction]
      exact hnext
    · rw [hfraction]
      exact hnearest
    · intro j hj c hc
      rw [hfraction] at hc
      exact not_reads_of_onGrid? (hfirst j hj) hc

/-- The decimal is read as the double, none that is has fewer digits, and of those with as
    few digits none is nearer to the value. -/
structure IsShortest (bits : Nat) (d : Decimal) : Prop where
  reads : d.toBits = bits
  fewest : ∀ d' : Decimal, d'.toBits = bits → d.size ≤ d'.size
  nearest : ∀ d' : Decimal, d'.toBits = bits → d'.size ≤ d.size →
    |magnitudeValue bits - d.value| ≤ |magnitudeValue bits - d'.value|

/-- The digits that are found for a double are the shortest. -/
theorem isShortest_shortest {bits : Nat} (hpos : 0 < bits) (hfinite : bits < infinityBits) :
    IsShortest bits (shortest bits) := by
  have hvalue := magnitudeValue_pos hpos
  obtain ⟨i, d, hi, hhit, hd⟩ := exists_firstHit hpos hfinite
  have hsize : (shortest bits).size ≤ i + 1 := by
    rw [hd]
    exact Decimal.size_strip_le (Nat.succ_pos i) (by omega) (hhit.nextTo.digits_le hvalue)
  -- a decimal with fewer digits than the grid would have been found on a coarser one
  have hcoarsest {d' : Decimal} (hd' : d'.toBits = bits) : i + 1 ≤ d'.size := by
    obtain ⟨c, hc, hread, -⟩ := exists_nextTo hvalue hfinite.le hd'
    have hpos' := d'.size_pos
    by_contra hlt
    exact hhit.coarser (d'.size - 1) (by omega) c hc hread
  refine ⟨toBits_shortest hfinite, fun d' hd' => hsize.trans (hcoarsest hd'), ?_⟩
  intro d' hd' hfew
  obtain ⟨c, hc, hread, hnear⟩ := exists_nextTo hvalue hfinite.le hd'
  have hgrid : d'.size - 1 = i := by
    have := hcoarsest hd'
    omega
  rw [hgrid] at hc
  rw [hd, Decimal.value_strip]
  exact (hhit.nearest c hc hread).trans hnear

end Treewalk.Number
