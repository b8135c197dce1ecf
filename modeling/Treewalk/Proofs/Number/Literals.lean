import Treewalk.Proofs.Number.Nearest
import Treewalk.Proofs.Number.Reading
import Treewalk.Proofs.Token.Boundaries

/-! # Numbers and literals

    The text of a finite double is a numeral that rounds to the double and to no other,
    the sign of zero included.  The language has no literals with a sign or an exponent; a
    text with neither is one number token for the scanner, and its literal is the double
    (`text_reads_back`). -/

namespace Treewalk.Number

/-! ### Numerals with a sign -/

/-- A decimal with a sign, which is there for zero as well. -/
structure Numeral where
  /-- There is a minus sign. -/
  negative : Bool
  /-- What the sign stands in front of. -/
  magnitude : Decimal

/-- The numeral that a text is, with a minus sign or without. -/
def signedNumeral? : List Char → Option Numeral
  | '-' :: cs => (numeral? cs).map fun d => ⟨true, d⟩
  | cs => (numeral? cs).map fun d => ⟨false, d⟩

/-- The sign of the double is a minus; it may be the one of a zero. -/
def IsNegative (x : Float) : Prop := signBit ≤ x.toBits.toNat

instance (x : Float) : Decidable (IsNegative x) :=
  inferInstanceAs (Decidable (signBit ≤ x.toBits.toNat))

/-- The double has the sign of the numeral, and none is nearer to the numeral. -/
structure Numeral.RoundsTo (n : Numeral) (x : Float) : Prop where
  sign : n.negative = true ↔ IsNegative x
  nearest : IsNearest n.magnitude.value (x.toBits.toNat % signBit)

/-- A double is its sign and its magnitude. -/
theorem eq_of_sign_of_magnitude {x y : Float} (hsign : IsNegative x ↔ IsNegative y)
    (hmagnitude : x.toBits.toNat % signBit = y.toBits.toNat % signBit) : x = y := by
  have hx := x.toBits.toNat_lt
  have hy := y.toBits.toNat_lt
  have hbits : x.toBits.toNat = y.toBits.toNat := by
    unfold IsNegative signBit at hsign
    unfold signBit at hmagnitude
    omega
  rw [← Float.ofBits_toBits x, ← Float.ofBits_toBits y, UInt64.toNat_inj.mp hbits]

/-- A numeral rounds to one double only. -/
theorem Numeral.RoundsTo.unique {n : Numeral} {x y : Float} (hx : n.RoundsTo x)
    (hy : n.RoundsTo y) : x = y :=
  eq_of_sign_of_magnitude (hx.sign.symm.trans hy.sign) (hx.nearest.unique hy.nearest)

theorem Decimal.toBits_le (d : Decimal) : d.toBits ≤ infinityBits :=
  (d.toBits_eq_iff.mp rfl).le_infinity

/-- A text that is read as the bits of a double is a numeral with their sign and their
    magnitude. -/
theorem exists_numeral {cs : List Char} {bits : Nat} (h : bitsOfText? cs = some bits) :
    ∃ n, signedNumeral? cs = some n ∧ (n.negative = true ↔ signBit ≤ bits) ∧
      n.magnitude.toBits = bits % signBit := by
  have hsmall (d : Decimal) : d.toBits < signBit := d.toBits_le.trans_lt (by decide)
  unfold bitsOfText? at h
  split at h
  · obtain ⟨d, hd, rfl⟩ := Option.map_eq_some_iff.mp h
    refine ⟨⟨true, d⟩, by simp only [signedNumeral?, hd, Option.map_some], by simp, ?_⟩
    rw [Nat.add_mod_left, Nat.mod_eq_of_lt (hsmall d)]
  · next hplain =>
    obtain ⟨d, hd, rfl⟩ := Option.map_eq_some_iff.mp h
    refine ⟨⟨false, d⟩, ?_, by simpa using hsmall d, (Nat.mod_eq_of_lt (hsmall d)).symm⟩
    unfold signedNumeral?
    split
    · next cs => exact absurd rfl (hplain cs)
    · rw [hd, Option.map_some]

/-! ### Literals -/

theorem isDigits_zero : IsDigits "0" := by simp [IsDigits, isDigit]

theorem isDigits_ofList {cs : List Char} (hne : cs ≠ []) (h : ∀ c ∈ cs, isDigit c = true) :
    IsDigits (String.ofList cs) := by
  unfold IsDigits
  rw [String.toList_ofList]
  exact ⟨hne, h⟩

/-- A number literal is a numeral. -/
theorem numeral?_literal {whole : String} {fraction : Option String}
    (h : (Lexeme.number whole fraction).HasForm) :
    numeral? (Lexeme.number whole fraction).text.toList =
      some (ofNumeral whole.toList (fraction.getD "").toList) := by
  cases fraction with
  | none =>
    have hread := numeral?_whole h.1 h.2 stops_nil nofun
    rwa [List.append_nil] at hread
  | some fraction =>
    obtain ⟨⟨hne, hwhole⟩, -, hfraction⟩ := h
    have hread := numeral?_point _ _ [] hne hwhole hfraction stops_nil
    have htext : (Lexeme.number whole (some fraction)).text.toList =
        whole.toList ++ '.' :: fraction.toList := by
      simp [Lexeme.text]
    rw [htext]
    rwa [List.append_nil] at hread

/-- A number that is laid out with its point in place is a literal. -/
theorem exists_literal_positional (d : Decimal) :
    ∃ whole fraction, (Lexeme.number whole fraction).HasForm ∧
      (Lexeme.number whole fraction).text.toList =
        Layout.positional .omitted (Layout.digits d.digits) d.exponent := by
  have hdigits := isDigit_of_mem_digits (n := d.digits)
  have hne := digits_ne_nil d.digits
  unfold Layout.positional
  generalize Layout.digits d.digits = ds at hdigits hne
  dsimp only
  split
  · refine ⟨String.ofList (ds ++ Layout.zeros d.exponent.toNat), none,
      isDigits_ofList (by simp [hne]) (List.forall_mem_append.mpr ⟨hdigits, isDigit_of_mem_zeros⟩),
      ?_⟩
    rw [List.append_nil]
    exact String.toList_ofList
  · split
    · next hlead =>
      have hlength : 0 < ds.length - (d.exponent + ds.length).toNat := by omega
      refine ⟨String.ofList (ds.take (d.exponent + ds.length).toNat),
        some (String.ofList (ds.drop (d.exponent + ds.length).toNat)), ⟨?_, ?_⟩, ?_⟩
      · exact isDigits_ofList (by simpa [List.take_eq_nil_iff, hne] using hlead)
          fun c hc => hdigits c (List.mem_of_mem_take hc)
      · exact isDigits_ofList (List.length_pos_iff.mp (by rwa [List.length_drop]))
          fun c hc => hdigits c (List.mem_of_mem_drop hc)
      · simp [Lexeme.text]
    · refine ⟨"0", some (String.ofList (Layout.zeros (-(d.exponent + ds.length)).toNat ++ ds)),
        ⟨isDigits_zero, isDigits_ofList (by simp [hne])
          (List.forall_mem_append.mpr ⟨isDigit_of_mem_zeros, hdigits⟩)⟩, ?_⟩
      simp [Lexeme.text]

theorem mem_scientific (ds : List Char) (e : Int) : 'e' ∈ Layout.scientific ds e := by
  unfold Layout.scientific
  exact List.mem_append_right _ List.mem_cons_self

/-- The text of a finite magnitude is a literal if it has no exponent. -/
theorem exists_literal {bits : Nat} (h : bits < infinityBits)
    (hplain : 'e' ∉ Layout.magnitude .omitted bits) :
    ∃ whole fraction, (Lexeme.number whole fraction).HasForm ∧
      (Lexeme.number whole fraction).text.toList = Layout.magnitude .omitted bits := by
  unfold Layout.magnitude at hplain ⊢
  rw [if_neg h.not_gt, if_neg h.ne] at hplain ⊢
  split at hplain
  · next hzero =>
    rw [if_pos hzero]
    exact ⟨"0", none, isDigits_zero, rfl⟩
  · next hzero =>
    rw [if_neg hzero]
    unfold Layout.decimal at hplain ⊢
    dsimp only at hplain ⊢
    split at hplain
    · next hplace =>
      rw [if_pos hplace]
      exact exists_literal_positional _
    · exact absurd (mem_scientific _ _) hplain

theorem lineEnds_number {whole : String} {fraction : Option String}
    (h : (Lexeme.number whole fraction).HasForm) :
    lineEnds (Lexeme.number whole fraction).text = 0 := by
  have hchars := (chars_of_numeral? (numeral?_literal h)).2
  refine List.count_eq_zero.mpr fun hmem => ?_
  have := hchars _ hmem
  contradiction

/-- The text of a finite double is a numeral that rounds to this double alone, the sign of
    zero included.  If there is no minus sign and no exponent, it is one number token and
    nothing else, and the literal of that token is the double. -/
theorem text_reads_back {x : Float} (h : IsFinite x) :
    (∃ n, signedNumeral? (text x).toList = some n ∧ ∀ y, n.RoundsTo y ↔ y = x) ∧
      (¬ IsNegative x → 'e' ∉ (text x).toList → ∀ line, ∃ whole fraction,
        scan (text x) line = ⟨[⟨.number whole fraction, line⟩], line, []⟩ ∧
          (Lexeme.number whole fraction).literal? = some (.number x)) := by
  have hbits : x.toBits.toNat < 2 * signBit := x.toBits.toNat_lt
  constructor
  · have hread := bitsOfText?_textOfBits .omitted hbits h
    obtain ⟨n, hn, hsign, hmagnitude⟩ := exists_numeral hread
    have hrounds : n.RoundsTo x := ⟨hsign, n.magnitude.toBits_eq_iff.mp hmagnitude⟩
    refine ⟨n, by rwa [text, String.toList_ofList], fun y => ⟨fun hy => hy.unique hrounds, ?_⟩⟩
    rintro rfl
    exact hrounds
  · intro hsign hplain line
    have hlt : x.toBits.toNat % signBit = x.toBits.toNat := Nat.mod_eq_of_lt (not_le.mp hsign)
    have htext : text x = String.ofList (Layout.magnitude .omitted x.toBits.toNat) := by
      unfold text textOfBits
      dsimp only
      rw [hlt, if_neg (fun hboth => hsign hboth.1)]
    have hfinite : x.toBits.toNat < infinityBits := by
      unfold IsFinite at h
      rwa [hlt] at h
    rw [htext, String.toList_ofList] at hplain
    obtain ⟨whole, fraction, hform, hlayout⟩ := exists_literal hfinite hplain
    obtain ⟨d, hread, hd⟩ := numeral?_magnitude .omitted hfinite
    rw [← hlayout, numeral?_literal hform, Option.some_inj] at hread
    refine ⟨whole, fraction, ?_, ?_⟩
    · have hscan := scan_lexeme hform line
      rw [lineEnds_number hform, Nat.cast_zero, Int.add_zero] at hscan
      rwa [htext, ← hlayout, String.ofList_toList]
    · unfold Lexeme.literal? Decimal.toFloat
      dsimp only
      rw [hread, hd, UInt64.ofNat_toNat, Float.ofBits_toBits]

/-- An integer beyond the ones that all have a double of their own. -/
theorem great_integer_reads_back :
    IsFinite 9007199254740994 ∧ ¬ IsNegative 9007199254740994 ∧
      'e' ∉ (text 9007199254740994).toList ∧
      (∃ n, signedNumeral? (text 9007199254740994).toList = some n ∧
        ∀ y, n.RoundsTo y ↔ y = 9007199254740994) ∧
      ∃ whole fraction, scan (text 9007199254740994) 1 = ⟨[⟨.number whole fraction, 1⟩], 1, []⟩ ∧
        (Lexeme.number whole fraction).literal? = some (.number 9007199254740994) := by
  have hfinite : IsFinite 9007199254740994 := by decide +kernel
  have hsign : ¬ IsNegative 9007199254740994 := by decide +kernel
  have hplain : 'e' ∉ (text 9007199254740994).toList := by decide +kernel
  obtain ⟨hread, hscan⟩ := text_reads_back hfinite
  exact ⟨hfinite, hsign, hplain, hread, hscan hsign hplain 1⟩

end Treewalk.Number
