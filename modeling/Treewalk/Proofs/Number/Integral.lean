import Treewalk.Proofs.Number.Literals
import Treewalk.Proofs.Number.Shortest

/-! # Integral numbers

    Below `10 ^ 16` an integral number is written with all its digits and nothing else
    (`text_of_integral`); every other number is written as it would be where fractions are
    always shown (`text_of_other`).  Beyond `2 ^ 53` not every integer is a double any more,
    so there the shortest decimal might be a different integer.  It is not, since every even
    integer is a double up to `2 ^ 54`, and this is beyond `10 ^ 16`. -/

namespace Treewalk.Number

/-! ### Integers that are doubles -/

/-- A multiple of a unit is a double if it has no more bits than a mantissa. -/
theorem exists_bits_of_units (k : Nat) {m : Nat} (hm : m ≤ 2 * hiddenBit) :
    ∃ bits ≤ (k + 2) * hiddenBit, magnitudeValue bits = m * lastUnit k := by
  induction k generalizing m with
  | zero =>
    refine ⟨0 * hiddenBit + m, ?_, magnitudeValue_fields hm (.inl rfl)⟩
    omega
  | succ k ih =>
    by_cases hnormal : hiddenBit ≤ m
    · refine ⟨(k + 1) * hiddenBit + m, ?_, magnitudeValue_fields hm (.inr hnormal)⟩
      rw [Nat.add_mul (k + 1)]
      exact Nat.add_le_add_left hm _
    · obtain ⟨bits, hbits, hvalue⟩ := ih (m := 2 * m) (by omega)
      refine ⟨bits, hbits.trans (Nat.mul_le_mul_right _ (Nat.le_succ _)), ?_⟩
      rw [hvalue, lastUnit_add]
      push_cast
      ring

theorem lastUnit_eq_one : lastUnit 1074 = 1 := by
  unfold lastUnit leastExponent
  norm_num

/-- Every integer up to `2 ^ 53` is a double, and every even one up to `2 ^ 54`. -/
theorem exists_bits_of_natural {n : Nat}
    (h : n ≤ 2 * hiddenBit ∨ n % 2 = 0 ∧ n ≤ 4 * hiddenBit) :
    ∃ bits ≤ infinityBits, magnitudeValue bits = n := by
  rcases h with hsmall | ⟨heven, hsmall⟩
  · obtain ⟨bits, hbits, hvalue⟩ := exists_bits_of_units 1074 hsmall
    refine ⟨bits, hbits.trans (by decide), ?_⟩
    rw [hvalue, lastUnit_eq_one, mul_one]
  · obtain ⟨bits, hbits, hvalue⟩ := exists_bits_of_units 1075 (show n / 2 ≤ 2 * hiddenBit by omega)
    refine ⟨bits, hbits.trans (by decide), ?_⟩
    have hhalf : n = 2 * (n / 2) := by omega
    rw [hvalue, lastUnit_add 1074 1, lastUnit_eq_one, hhalf]
    push_cast
    rw [Nat.mul_div_cancel_left _ two_pos]
    ring

theorem exists_isNearest_natural {n : Nat}
    (h : n ≤ 2 * hiddenBit ∨ n % 2 = 0 ∧ n ≤ 4 * hiddenBit) :
    ∃ bits, magnitudeValue bits = n ∧ IsNearest n bits := by
  obtain ⟨bits, hbits, hvalue⟩ := exists_bits_of_natural h
  have hself := isNearest_self hbits
  rw [hvalue] at hself
  exact ⟨bits, hvalue, hself⟩

/-- Every double from `2 ^ 53` on is an integer. -/
theorem exists_natural {bits : Nat} (h : 2 * hiddenBit ≤ magnitudeValue bits) :
    ∃ n : Nat, magnitudeValue bits = n := by
  obtain ⟨k, m, rfl, hm, hnormal⟩ := exists_fields bits
  rw [magnitudeValue_fields hm.le hnormal] at h ⊢
  have hk : 1074 ≤ k := by
    by_contra hlt
    obtain ⟨j, hj⟩ := Nat.exists_eq_add_of_le (not_le.mp hlt).le
    have hunit := lastUnit_eq_one
    rw [hj, lastUnit_add] at hunit
    have hpower : (1 : ℚ) ≤ 2 ^ j := one_le_pow₀ one_le_two
    have hle : lastUnit k ≤ 1 := by
      rw [← hunit]
      exact le_mul_of_one_le_left (lastUnit_pos k).le hpower
    have hm' : (m : ℚ) < 2 * hiddenBit := by exact_mod_cast hm
    have := mul_le_mul_of_nonneg_left hle (Nat.cast_nonneg m)
    linarith
  obtain ⟨j, rfl⟩ := Nat.exists_eq_add_of_le hk
  refine ⟨m * 2 ^ j, ?_⟩
  rw [lastUnit_add, lastUnit_eq_one]
  push_cast
  ring

/-! ### Integers that are rounded -/

/-- An integer is rounded to itself if it has a double of its own; an even one that has none
    is too great. -/
theorem IsNearest.eq_natural {bits n : Nat} (h : IsNearest n bits)
    (hn : n ≤ 2 * hiddenBit ∨ n % 2 = 0 ∧ magnitudeValue bits < 4 * hiddenBit) :
    magnitudeValue bits = n := by
  have hexact (hdouble : n ≤ 2 * hiddenBit ∨ n % 2 = 0 ∧ n ≤ 4 * hiddenBit) :
      magnitudeValue bits = n := by
    obtain ⟨bits', hvalue, hself⟩ := exists_isNearest_natural hdouble
    rw [h.unique hself, hvalue]
  rcases hn with hsmall | ⟨heven, hless⟩
  · exact hexact (.inl hsmall)
  · by_cases hle : n ≤ 4 * hiddenBit
    · exact hexact (.inr ⟨heven, hle⟩)
    · obtain ⟨bits', hvalue, hself⟩ :=
        exists_isNearest_natural (n := 4 * hiddenBit) (.inr ⟨by decide, le_rfl⟩)
      have hge : (4 * hiddenBit : Nat) ≤ (n : ℚ) := by exact_mod_cast (not_le.mp hle).le
      have hmono := magnitudeValue_strictMono.monotone (hself.mono hge h)
      rw [hvalue] at hmono
      push_cast at hmono
      linarith

/-- A double that an integer up to `10 ^ 16` is rounded to is an integer up to `10 ^ 16`. -/
theorem IsNearest.exists_natural {bits n : Nat} (h : IsNearest n bits) (hn : n ≤ 10 ^ 16) :
    ∃ v : Nat, v ≤ 10 ^ 16 ∧ magnitudeValue bits = v := by
  by_cases hsmall : n ≤ 2 * hiddenBit
  · exact ⟨n, hn, h.eq_natural (.inl hsmall)⟩
  · obtain ⟨low, hlow, hnearLow⟩ := exists_isNearest_natural (n := 2 * hiddenBit) (.inl le_rfl)
    obtain ⟨high, hhigh, hnearHigh⟩ :=
      exists_isNearest_natural (n := 10 ^ 16) (.inr ⟨by decide, by decide⟩)
    have hge := magnitudeValue_strictMono.monotone
      (hnearLow.mono (by exact_mod_cast (not_le.mp hsmall).le) h)
    have hle := magnitudeValue_strictMono.monotone (h.mono (by exact_mod_cast hn) hnearHigh)
    rw [hlow] at hge
    rw [hhigh] at hle
    obtain ⟨v, hv⟩ := Number.exists_natural (by exact_mod_cast hge)
    refine ⟨v, ?_, hv⟩
    rw [hv] at hle
    exact_mod_cast hle

/-! ### The shortest decimal of an integer -/

theorem IsNextTo.exponent_eq {q : ℚ} {e : ℤ} {d : Decimal} (h : IsNextTo q e d) :
    d.exponent = e := by
  rcases h with rfl | rfl <;> rfl

theorem value_below_natural (n : Nat) : (below n 0).value = n := by
  unfold Decimal.value below
  rw [zpow_zero, div_one, Nat.floor_natCast, mul_one]

/-- A decimal without fraction is an integer. -/
theorem Decimal.value_natural {d : Decimal} {k : Nat} (h : d.exponent = k) :
    d.value = (d.digits * 10 ^ k : Nat) := by
  rw [Decimal.value, h, zpow_natCast]
  push_cast
  rfl

/-- The shortest decimal of an integer up to `10 ^ 16` is exact, and it has no fraction. -/
theorem shortest_natural {bits n : Nat} (hfinite : bits < infinityBits)
    (hvalue : magnitudeValue bits = n) (hpos : 0 < n) (hn : n ≤ 10 ^ 16) :
    (shortest bits).value = n ∧ 0 ≤ (shortest bits).exponent := by
  have hbits : 0 < bits := by
    by_contra hzero
    rw [Nat.eq_zero_of_not_pos hzero, magnitudeValue_zero] at hvalue
    exact hpos.ne (by exact_mod_cast hvalue)
  obtain ⟨i, d, -, hhit, hd⟩ := exists_firstHit hbits hfinite
  obtain ⟨hread, hnext, hnearest, hcoarser⟩ := hhit
  rw [hvalue] at hnext hnearest hcoarser
  have hone : (1 : ℚ) ≤ n := by exact_mod_cast hpos
  have hlead := Int.log_of_one_le_right 10 hone
  rw [hlead] at hnext hnearest hcoarser
  generalize Nat.log 10 ⌊(n : ℚ)⌋₊ = lead at hnext hnearest hcoarser
  -- on the grid of the integers the integer itself reads back
  have hself : (below n 0).toBits = bits := by
    apply Decimal.toBits_of_value_eq hfinite
    rw [value_below_natural, ← hvalue]
    rfl
  have hgrid : i ≤ lead := by
    by_contra hlt
    refine hcoarser lead (not_le.mp hlt) (below n 0) ?_ hself
    rw [sub_self]
    exact .inl rfl
  obtain ⟨g, rfl⟩ := Nat.exists_eq_add_of_le hgrid
  have hexponent : d.exponent = g := by
    rw [hnext.exponent_eq]
    omega
  have hexact : d.value = n := by
    by_cases hg : g = 0
    · rw [hg, Nat.add_zero, sub_self] at hnearest
      have hnear := hnearest (below n 0) (.inl rfl) hself
      rw [value_below_natural, sub_self, abs_zero] at hnear
      have hzero := abs_eq_zero.mp (le_antisymm hnear (abs_nonneg _))
      linarith
    · -- on a coarser grid there are even integers only
      have hnear := (d.toBits_eq_iff.mp hread)
      rw [d.value_natural hexponent] at hnear ⊢
      have heven : d.digits * 10 ^ g % 2 = 0 :=
        Nat.mod_eq_zero_of_dvd ((dvd_pow (by decide) hg).mul_left _)
      have hless : magnitudeValue bits < 4 * hiddenBit := by
        have : n < 4 * hiddenBit := hn.trans_lt (by decide)
        rw [hvalue]
        exact_mod_cast this
      rw [← hvalue]
      exact (hnear.eq_natural (.inr ⟨heven, hless⟩)).symm
  rw [hd]
  refine ⟨(Decimal.value_strip 800 d).trans hexact, ?_⟩
  have := d.le_exponent_strip 800
  omega

/-! ### Texts -/

/-- Zeros behind the digits are those of a power of ten. -/
theorem digits_mul_power {n : Nat} (hn : 0 < n) (k : Nat) :
    Layout.digits (n * 10 ^ k) = Layout.digits n ++ Layout.zeros k := by
  induction k with
  | zero => simp [Layout.zeros]
  | succ k ih =>
    have hpos : 0 < n * 10 ^ k := Nat.mul_pos hn (Nat.pow_pos (by decide))
    have hlast := Nat.toDigits_append_toDigits (b := 10) (d := 0) (by decide) hpos (by decide)
    rw [Nat.pow_succ, ← Nat.mul_assoc, Nat.mul_comm]
    unfold Layout.digits at ih ⊢
    rw [Nat.add_zero] at hlast
    rw [← hlast, ih, Nat.toDigits_zero, List.append_assoc, Layout.zeros, Layout.zeros,
      List.replicate_succ']

/-- A decimal that is an integer with sixteen digits at most is written with these digits. -/
theorem decimal_of_natural {d : Decimal} {n : Nat} (hvalue : d.value = n)
    (hexponent : 0 ≤ d.exponent) (hpos : 0 < n) (hn : n < 10 ^ 16) :
    Layout.decimal .omitted d = Layout.digits n := by
  obtain ⟨k, hk⟩ := Int.eq_ofNat_of_zero_le hexponent
  have hdigits : d.digits * 10 ^ k = n := by
    rw [d.value_natural hk] at hvalue
    exact_mod_cast hvalue
  have hfirst : 0 < d.digits := Nat.pos_of_mul_pos_right (hdigits ▸ hpos)
  have htext := digits_mul_power hfirst k
  have hlength : (Layout.digits n).length ≤ 16 :=
    (Nat.length_toDigits_le_iff (by decide) (by decide)).mpr hn
  rw [hdigits] at htext
  rw [htext, List.length_append, Layout.zeros, List.length_replicate] at hlength
  unfold Layout.decimal Layout.positional
  dsimp only
  rw [hk, if_pos (by omega), if_pos (by omega), Int.toNat_natCast, List.append_nil, htext]

/-- The text of a magnitude that is an integer below `10 ^ 16`. -/
theorem magnitude_of_natural {bits n : Nat} (hfinite : bits < infinityBits)
    (hvalue : magnitudeValue bits = n) (hn : n < 10 ^ 16) :
    Layout.magnitude .omitted bits = Layout.digits n := by
  unfold Layout.magnitude
  rw [if_neg hfinite.not_gt, if_neg hfinite.ne]
  by_cases hzero : bits = 0
  · rw [hzero, magnitudeValue_zero] at hvalue
    have hn : n = 0 := by exact_mod_cast hvalue.symm
    rw [if_pos hzero, hn]
    rfl
  · have hpos : 0 < n := by
      have := magnitudeValue_pos (Nat.pos_of_ne_zero hzero)
      rw [hvalue] at this
      exact_mod_cast this
    obtain ⟨hexact, hexponent⟩ := shortest_natural hfinite hvalue hpos hn.le
    rw [if_neg hzero]
    exact decimal_of_natural hexact hexponent hpos hn

/-- An integral double below `10 ^ 16` is written with the digits of the integer, behind a
    minus sign if it is negative; so is the negative zero. -/
theorem text_of_integral {x : Float} {n : Nat} (hfinite : IsFinite x)
    (hvalue : magnitudeValue (x.toBits.toNat % signBit) = n) (hn : n < 10 ^ 16) :
    (text x).toList = (if IsNegative x then ['-'] else []) ++ Layout.digits n := by
  unfold text textOfBits
  dsimp only
  rw [String.toList_ofList, magnitude_of_natural hfinite hvalue hn]
  by_cases hsign : IsNegative x
  · rw [if_pos hsign, if_pos ⟨hsign, hfinite.le⟩]
    rfl
  · rw [if_neg hsign, if_neg (fun hboth => hsign hboth.1)]
    rfl

/-- A decimal is written in one way only if it has a fraction or an exponent. -/
theorem decimal_omitted_eq {d : Decimal}
    (h : ∀ n : Nat, n < 10 ^ 16 → 0 ≤ d.exponent → d.value ≠ n) :
    Layout.decimal .omitted d = Layout.decimal .kept d := by
  unfold Layout.decimal Layout.positional
  dsimp only
  by_cases hplace : -4 ≤ d.exponent + (Layout.digits d.digits).length - 1 ∧
      d.exponent + (Layout.digits d.digits).length - 1 < 16
  · rw [if_pos hplace, if_pos hplace]
    by_cases hexponent : 0 ≤ d.exponent
    · -- the decimal would be an integer with sixteen digits at most
      obtain ⟨k, hk⟩ := Int.eq_ofNat_of_zero_le hexponent
      have hless : d.digits < 10 ^ d.size := (Decimal.size_le_iff d.size_pos).mp le_rfl
      have hsize : d.size + k ≤ 16 := by
        unfold Decimal.size
        omega
      have hbound : d.digits * 10 ^ k < 10 ^ 16 :=
        calc d.digits * 10 ^ k < 10 ^ d.size * 10 ^ k :=
              Nat.mul_lt_mul_of_pos_right hless (Nat.pow_pos (by decide))
          _ = 10 ^ (d.size + k) := (Nat.pow_add _ _ _).symm
          _ ≤ 10 ^ 16 := Nat.pow_le_pow_right (by decide) hsize
      exact absurd (d.value_natural hk) (h _ hbound hexponent)
    · rw [if_neg hexponent, if_neg hexponent]
  · rw [if_neg hplace, if_neg hplace]

/-- A double that is no integer below `10 ^ 16` is written as it is where fractions are
    always shown. -/
theorem text_of_other {x : Float}
    (h : ∀ n : Nat, n < 10 ^ 16 → magnitudeValue (x.toBits.toNat % signBit) ≠ n) :
    text x = textWithFraction x := by
  have hmagnitude : Layout.magnitude .omitted (x.toBits.toNat % signBit) =
      Layout.magnitude .kept (x.toBits.toNat % signBit) := by
    generalize x.toBits.toNat % signBit = bits at h
    unfold Layout.magnitude
    by_cases hnan : infinityBits < bits
    · rw [if_pos hnan, if_pos hnan]
    by_cases hinfinity : bits = infinityBits
    · rw [if_neg hnan, if_pos hinfinity, if_neg hnan, if_pos hinfinity]
    by_cases hzero : bits = 0
    · rw [hzero, magnitudeValue_zero] at h
      exact absurd rfl (h 0 (by decide))
    rw [if_neg hnan, if_neg hinfinity, if_neg hzero, if_neg hnan, if_neg hinfinity, if_neg hzero]
    have hfinite : bits < infinityBits := by omega
    apply decimal_omitted_eq
    intro n hn _ hvalue
    -- what is written as an integer is one
    have hnear := (shortest bits).toBits_eq_iff.mp (toBits_shortest hfinite)
    rw [hvalue] at hnear
    obtain ⟨v, hv, hinteger⟩ := hnear.exists_natural hn.le
    have hpos : 0 < v := by
      have := magnitudeValue_pos (Nat.pos_of_ne_zero hzero)
      rw [hinteger] at this
      exact_mod_cast this
    have hexact := (shortest_natural hfinite hinteger hpos hv).1
    rw [hvalue] at hexact
    rw [← hexact] at hinteger
    exact h n hn hinteger
  unfold text textWithFraction textOfBits
  dsimp only
  rw [hmagnitude]

example : text 9999999999999998 = "9999999999999998" ∧ text 10000000000000000 = "1e+16" := by
  decide +kernel

end Treewalk.Number
