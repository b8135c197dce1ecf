import Mathlib
import Treewalk.Number.Layout
import Treewalk.Proofs.Number.Rounding
import Treewalk.Proofs.Token.Split

/-! # Numbers are read back

    The text of a number is a decimal numeral, written with a point, with an exponent or
    with neither.  Reading it gives the digits and the scale that were written, so it gives
    the double back that the text was made for.  Hence different finite doubles have
    different texts. -/

namespace Treewalk.Number

/-! ### Numerals -/

/-- The exponent that a text stands for: a sign and digits. -/
def exponent? : List Char → Option Int
  | [] => none
  | sign :: ds =>
    if ds = [] ∨ ds.all isDigit = false then none
    else if sign = '-' then some (-(ofDigits ds : Int))
    else if sign = '+' then some (ofDigits ds)
    else none

/-- The decimal scaled by what follows its digits: nothing, or an exponent. -/
def scaled? (d : Decimal) : List Char → Option Decimal
  | [] => some d
  | 'e' :: cs => (exponent? cs).map fun e => ⟨d.digits, d.exponent + e⟩
  | _ => none

/-- The decimal that a numeral without a sign stands for.  It begins with a digit; a point
    with digits and an exponent may follow. -/
def numeral? (cs : List Char) : Option Decimal :=
  let whole := cs.takeWhile isDigit
  if whole = [] then none
  else match cs.dropWhile isDigit with
    | '.' :: rest =>
      scaled? (ofNumeral whole (rest.takeWhile isDigit)) (rest.dropWhile isDigit)
    | rest => scaled? (ofNumeral whole []) rest

/-- The bits of the double that a numeral, with a minus sign or without, is read as. -/
def bitsOfText? : List Char → Option Nat
  | '-' :: cs => (numeral? cs).map fun d => signBit + d.toBits
  | cs => (numeral? cs).map Decimal.toBits

/-! ### Digits -/

theorem ofDigits_eq (ds : List Char) : ofDigits ds = Nat.ofDigitChars 10 ds 0 := rfl

@[simp] theorem ofDigits_digits (n : Nat) : ofDigits (Layout.digits n) = n :=
  Nat.ofDigitChars_ten_toDigits

theorem isDigit_of_mem_digits {n : Nat} : ∀ c ∈ Layout.digits n, isDigit c = true := by
  intro c hc
  have hdigit := Nat.isDigit_of_mem_toDigits (by decide) (by decide) hc
  simpa [isDigit, Char.isDigit, Char.le_def] using hdigit

theorem digits_ne_nil (n : Nat) : Layout.digits n ≠ [] := Nat.toDigits_ne_nil

theorem isDigit_of_mem_zeros {n : Nat} : ∀ c ∈ Layout.zeros n, isDigit c = true := by
  intro c hc
  rw [List.eq_of_mem_replicate hc]
  decide

/-- Zeros in front change nothing. -/
theorem ofDigits_zeros_append (n : Nat) (ds : List Char) :
    ofDigits (Layout.zeros n ++ ds) = ofDigits ds := by
  rw [ofDigits_eq, Nat.ofDigitChars_append, Layout.zeros, Nat.ofDigitChars_replicate_zero,
    Nat.mul_zero, ofDigits_eq]

/-- Zeros behind scale by a power of ten. -/
theorem ofDigits_append_zeros (n : Nat) (ds : List Char) :
    ofDigits (ds ++ Layout.zeros n) = 10 ^ n * ofDigits ds := by
  rw [ofDigits_eq, Nat.ofDigitChars_append, Layout.zeros, Nat.ofDigitChars_replicate_zero,
    ofDigits_eq]

theorem ofDigits_zero_cons (ds : List Char) : ofDigits ('0' :: ds) = ofDigits ds :=
  ofDigits_zeros_append 1 ds

/-! ### Forms of a numeral -/

section Forms

variable {whole fraction rest : List Char}

/-- Digits alone, and what scales them. -/
theorem numeral?_whole (hne : whole ≠ []) (hwhole : ∀ c ∈ whole, isDigit c = true)
    (hrest : Stops isDigit rest) (hpoint : ∀ after, rest ≠ '.' :: after) :
    numeral? (whole ++ rest) = scaled? (ofNumeral whole []) rest := by
  unfold numeral?
  dsimp only
  rw [takeWhile_run hwhole hrest, if_neg hne, dropWhile_run hwhole hrest]
  split
  · next after => exact absurd rfl (hpoint after)
  · rfl

/-- Digits with a point among them, and what scales them. -/
theorem numeral?_point (whole fraction rest : List Char) (hne : whole ≠ [])
    (hwhole : ∀ c ∈ whole, isDigit c = true) (hfraction : ∀ c ∈ fraction, isDigit c = true)
    (hrest : Stops isDigit rest) :
    numeral? (whole ++ '.' :: (fraction ++ rest)) = scaled? (ofNumeral whole fraction) rest := by
  have hpoint : Stops isDigit ('.' :: (fraction ++ rest)) := stops_cons.mpr rfl
  unfold numeral?
  dsimp only
  rw [takeWhile_run hwhole hpoint, if_neg hne, dropWhile_run hwhole hpoint]
  show scaled? (ofNumeral whole ((fraction ++ rest).takeWhile isDigit))
    ((fraction ++ rest).dropWhile isDigit) = _
  rw [takeWhile_run hfraction hrest, dropWhile_run hfraction hrest]

end Forms

/-- A numeral begins with a digit, so the sign in front of it is read as one. -/
theorem bitsOfText?_of_numeral? {cs : List Char} {d : Decimal} (h : numeral? cs = some d) :
    bitsOfText? cs = some d.toBits ∧ bitsOfText? ('-' :: cs) = some (signBit + d.toBits) := by
  have hminus : ∀ rest, cs ≠ '-' :: rest := by
    rintro rest rfl
    cases h
  refine ⟨?_, ?_⟩
  · unfold bitsOfText?
    split
    · next rest => exact absurd rfl (hminus rest)
    · rw [h, Option.map_some]
  · simp only [bitsOfText?, h, Option.map_some]

/-! ### Characters -/

/-- A character of a numeral. -/
def isNumeralChar (c : Char) : Bool := isDigit c || c == '.' || c == 'e' || c == '+' || c == '-'

theorem isNumeralChar_digit {c : Char} (h : isDigit c = true) : isNumeralChar c = true := by
  simp [isNumeralChar, h]

theorem chars_of_exponent? {cs : List Char} {e : Int} (h : exponent? cs = some e) :
    ∀ c ∈ cs, isNumeralChar c = true := by
  cases cs with
  | nil => exact nofun
  | cons sign ds =>
    simp only [exponent?] at h
    split at h
    · cases h
    · next hdigits =>
      have hall : ds.all isDigit = true := by simpa using (not_or.mp hdigits).2
      refine List.forall_mem_cons.mpr
        ⟨?_, fun c hc => isNumeralChar_digit (List.all_eq_true.mp hall c hc)⟩
      split at h
      · next hsign => rw [hsign]; rfl
      · split at h
        · next hsign => rw [hsign]; rfl
        · cases h

theorem chars_of_scaled? {d d' : Decimal} {cs : List Char} (h : scaled? d cs = some d') :
    ∀ c ∈ cs, isNumeralChar c = true := by
  unfold scaled? at h
  split at h
  · exact nofun
  · obtain ⟨e, he, -⟩ := Option.map_eq_some_iff.mp h
    exact List.forall_mem_cons.mpr ⟨rfl, chars_of_exponent? he⟩
  · cases h

/-- A numeral begins with a digit and is made of the characters of numerals. -/
theorem chars_of_numeral? {cs : List Char} {d : Decimal} (h : numeral? cs = some d) :
    (∃ c rest, cs = c :: rest ∧ isDigit c = true) ∧ ∀ c ∈ cs, isNumeralChar c = true := by
  have hsplit := List.takeWhile_append_dropWhile (p := isDigit) (l := cs)
  have hwhole : ∀ c ∈ cs.takeWhile isDigit, isDigit c = true := fun c hc => mem_takeWhile hc
  unfold numeral? at h
  dsimp only at h
  split at h
  · cases h
  · next hne =>
    obtain ⟨c, rest, hcons⟩ := List.exists_cons_of_ne_nil hne
    have hrest : ∀ x ∈ cs.dropWhile isDigit, isNumeralChar x = true := by
      split at h
      · next after hafter =>
        have hfraction := List.takeWhile_append_dropWhile (p := isDigit) (l := after)
        rw [hafter]
        refine List.forall_mem_cons.mpr ⟨rfl, ?_⟩
        rw [← hfraction]
        exact List.forall_mem_append.mpr
          ⟨fun x hx => isNumeralChar_digit (mem_takeWhile hx), chars_of_scaled? h⟩
      · exact chars_of_scaled? h
    refine ⟨⟨c, rest ++ cs.dropWhile isDigit, ?_, hwhole c (hcons ▸ List.mem_cons_self)⟩, ?_⟩
    · rw [← List.cons_append, ← hcons, hsplit]
    · rw [← hsplit]
      exact List.forall_mem_append.mpr ⟨fun x hx => isNumeralChar_digit (hwhole x hx), hrest⟩

/-- So is one with a sign, but for the sign. -/
theorem chars_of_bitsOfText? {cs : List Char} {bits : Nat} (h : bitsOfText? cs = some bits) :
    (∃ c rest, cs = c :: rest ∧ (c = '-' ∨ isDigit c = true)) ∧
      ∀ c ∈ cs, isNumeralChar c = true := by
  unfold bitsOfText? at h
  split at h
  · next rest =>
    obtain ⟨d, hd, -⟩ := Option.map_eq_some_iff.mp h
    exact ⟨⟨'-', rest, rfl, .inl rfl⟩,
      List.forall_mem_cons.mpr ⟨rfl, (chars_of_numeral? hd).2⟩⟩
  · obtain ⟨d, hd, -⟩ := Option.map_eq_some_iff.mp h
    obtain ⟨⟨c, rest, hcons, hc⟩, hall⟩ := chars_of_numeral? hd
    exact ⟨⟨c, rest, hcons, .inr hc⟩, hall⟩

/-! ### Layouts -/

theorem exponent?_cons {ds : List Char} (hne : ds ≠ []) (hds : ∀ c ∈ ds, isDigit c = true)
    {e : Int} (hvalue : ofDigits ds = e.natAbs) :
    exponent? ((if e < 0 then '-' else '+') :: ds) = some e := by
  have hall : ds.all isDigit = true := List.all_eq_true.mpr hds
  have hdigits : ¬ (ds = [] ∨ ds.all isDigit = false) := by simp [hne, hall]
  simp only [exponent?]
  rw [if_neg hdigits, hvalue]
  by_cases hneg : e < 0
  · simp only [if_pos hneg, if_true]
    exact congrArg some (by omega)
  · simp only [if_neg hneg, if_true]
    exact congrArg some (by omega)

theorem exponent?_exponentText (e : Int) : exponent? (Layout.exponentText e) = some e := by
  have hdigits := isDigit_of_mem_digits (n := e.natAbs)
  unfold Layout.exponentText
  dsimp only
  by_cases hshort : (Layout.digits e.natAbs).length < 2
  · rw [if_pos hshort]
    refine exponent?_cons (List.cons_ne_nil _ _) (List.forall_mem_cons.mpr ⟨by decide, hdigits⟩) ?_
    rw [ofDigits_zero_cons, ofDigits_digits]
  · rw [if_neg hshort]
    exact exponent?_cons (digits_ne_nil _) hdigits (ofDigits_digits _)

/-- An integer that is not negative is the natural number it is converted to. -/
theorem natCast_zpow_toNat {k : Int} (h : 0 ≤ k) : ((10 ^ k.toNat : Nat) : ℚ) = 10 ^ k := by
  obtain ⟨n, rfl⟩ := Int.eq_ofNat_of_zero_le h
  simp

/-- Reading a text gives a decimal of the same value. -/
def ReadsAs (cs : List Char) (d : Decimal) : Prop :=
  ∃ read, numeral? cs = some read ∧ read.value = d.value

theorem readsAs_positional (d : Decimal) (fraction : Fraction) :
    ReadsAs (Layout.positional fraction (Layout.digits d.digits) d.exponent) d := by
  have hdigits := isDigit_of_mem_digits (n := d.digits)
  unfold Layout.positional
  dsimp only
  split
  · next hpos =>
    have hwhole : ∀ c ∈ Layout.digits d.digits ++ Layout.zeros d.exponent.toNat,
        isDigit c = true :=
      List.forall_mem_append.mpr ⟨hdigits, isDigit_of_mem_zeros⟩
    have hne : Layout.digits d.digits ++ Layout.zeros d.exponent.toNat ≠ [] := by
      simp [digits_ne_nil]
    have hvalue : (ofDigits (Layout.digits d.digits ++ Layout.zeros d.exponent.toNat) : ℚ) =
        d.value := by
      rw [ofDigits_append_zeros, ofDigits_digits, Nat.cast_mul, natCast_zpow_toNat hpos, mul_comm]
      rfl
    cases fraction with
    | omitted =>
      refine ⟨_, numeral?_whole hne hwhole stops_nil nofun, ?_⟩
      rw [← hvalue]
      simp [ofNumeral, Decimal.value]
    | kept =>
      refine ⟨_, numeral?_point _ ['0'] [] hne hwhole (by simp [isDigit]) stops_nil, ?_⟩
      have hzero := ofDigits_append_zeros 1
        (Layout.digits d.digits ++ Layout.zeros d.exponent.toNat)
      rw [← hvalue]
      unfold ofNumeral Decimal.value
      dsimp only
      rw [show (['0'] : List Char) = Layout.zeros 1 from rfl, hzero,
        show (Layout.zeros 1).length = 1 from rfl, Nat.cast_mul]
      norm_num
      ring
  · next hneg =>
    split
    · next hlead =>
      -- the point stands between the digits
      have hlength : (d.exponent + (Layout.digits d.digits).length).toNat ≤
          (Layout.digits d.digits).length := by omega
      have hread := numeral?_point
        ((Layout.digits d.digits).take (d.exponent + (Layout.digits d.digits).length).toNat)
        ((Layout.digits d.digits).drop (d.exponent + (Layout.digits d.digits).length).toNat) []
        (by simpa [List.take_eq_nil_iff, digits_ne_nil] using hlead)
        (fun c hc => hdigits c (List.mem_of_mem_take hc))
        (fun c hc => hdigits c (List.mem_of_mem_drop hc)) stops_nil
      rw [List.append_nil] at hread
      refine ⟨_, hread, ?_⟩
      unfold ofNumeral Decimal.value
      dsimp only
      rw [List.take_append_drop, ofDigits_digits, List.length_drop]
      congr 2
      omega
    · next hlead =>
      have hread := numeral?_point ['0']
        (Layout.zeros (-(d.exponent + (Layout.digits d.digits).length)).toNat ++
          Layout.digits d.digits) []
        (List.cons_ne_nil _ _) (by simp [isDigit])
        (List.forall_mem_append.mpr ⟨isDigit_of_mem_zeros, hdigits⟩) stops_nil
      rw [List.append_nil] at hread
      refine ⟨_, hread, ?_⟩
      unfold ofNumeral Decimal.value
      dsimp only
      rw [List.singleton_append, ofDigits_zero_cons, ofDigits_zeros_append, ofDigits_digits,
        List.length_append, Layout.zeros, List.length_replicate]
      congr 2
      omega

theorem readsAs_scientific (d : Decimal) :
    ReadsAs (Layout.scientific (Layout.digits d.digits) d.exponent) d := by
  have hdigits := isDigit_of_mem_digits (n := d.digits)
  have hne := digits_ne_nil d.digits
  have hvalue := ofDigits_digits d.digits
  have hscaled (x : Decimal) (e : Int) : scaled? x ('e' :: Layout.exponentText e) =
      some ⟨x.digits, x.exponent + e⟩ := by
    simp only [scaled?, exponent?_exponentText, Option.map_some]
  have hstop (cs : List Char) : Stops isDigit ('e' :: cs) := stops_cons.mpr rfl
  unfold Layout.scientific
  generalize Layout.digits d.digits = ds at hdigits hne hvalue
  dsimp only
  rcases ds with _ | ⟨c, _ | ⟨c', rest⟩⟩
  · exact absurd rfl hne
  · refine ⟨_, (numeral?_whole (List.cons_ne_nil _ _) hdigits (hstop _) nofun).trans
      (hscaled _ _), ?_⟩
    unfold ofNumeral Decimal.value
    dsimp only
    rw [List.append_nil, hvalue]
    congr 2
    simp
  · obtain ⟨hc, hrest⟩ := List.forall_mem_cons.mp hdigits
    refine ⟨_, (numeral?_point [c] _ _ (List.cons_ne_nil _ _) (by simpa using hc) hrest
      (hstop _)).trans (hscaled _ _), ?_⟩
    unfold ofNumeral Decimal.value
    dsimp only
    rw [List.singleton_append, hvalue]
    congr 2
    simp only [List.length_cons]
    omega

theorem readsAs_decimal (fraction : Fraction) (d : Decimal) :
    ReadsAs (Layout.decimal fraction d) d := by
  unfold Layout.decimal
  dsimp only
  split
  · exact readsAs_positional d fraction
  · exact readsAs_scientific d

/-! ### Doubles -/

/-- The magnitude bits of a finite double are read back. -/
theorem numeral?_magnitude (fraction : Fraction) {bits : Nat} (h : bits < infinityBits) :
    ∃ d, numeral? (Layout.magnitude fraction bits) = some d ∧ d.toBits = bits := by
  unfold Layout.magnitude
  rw [if_neg h.not_gt, if_neg h.ne]
  split
  · next hzero =>
    subst hzero
    cases fraction <;> exact ⟨_, rfl, rfl⟩
  · obtain ⟨d, hread, hvalue⟩ := readsAs_decimal fraction (shortest bits)
    exact ⟨d, hread, (Decimal.toBits_congr hvalue).trans (toBits_shortest h)⟩

/-- The double is neither infinite nor no number at all. -/
def IsFinite (x : Float) : Prop := x.toBits.toNat % signBit < infinityBits

instance (x : Float) : Decidable (IsFinite x) :=
  inferInstanceAs (Decidable (x.toBits.toNat % signBit < infinityBits))

/-- The bits of a finite double are read back from its text, the sign included. -/
theorem bitsOfText?_textOfBits (fraction : Fraction) {bits : Nat} (hbits : bits < 2 * signBit)
    (h : bits % signBit < infinityBits) : bitsOfText? (textOfBits fraction bits) = some bits := by
  obtain ⟨d, hread, hd⟩ := numeral?_magnitude fraction h
  obtain ⟨hplain, hminus⟩ := bitsOfText?_of_numeral? hread
  unfold textOfBits
  dsimp only
  split
  · next hsign =>
    rw [hminus, hd, Nat.mod_eq_sub_mod hsign.1, Nat.mod_eq_of_lt (by omega)]
    exact congrArg some (by omega)
  · next hsign =>
    have hlt : bits < signBit := by
      by_contra hge
      exact hsign ⟨not_lt.mp hge, h.le⟩
    rw [hplain, hd, Nat.mod_eq_of_lt hlt]

/-- The double that a text is read as. -/
def ofText? (s : String) : Option Float :=
  (bitsOfText? s.toList).map fun bits => Float.ofBits (UInt64.ofNat bits)

/-- A finite double is read back from its text. -/
theorem ofText?_text {x : Float} (h : IsFinite x) : ofText? (text x) = some x := by
  have hbits : x.toBits.toNat < 2 * signBit := x.toBits.toNat_lt
  unfold ofText? text
  rw [String.toList_ofList, bitsOfText?_textOfBits .omitted hbits h, Option.map_some,
    UInt64.ofNat_toNat, Float.ofBits_toBits]

/-- The text of a finite double begins with a digit or a minus sign and is made of the
    characters of numerals. -/
theorem chars_of_text {x : Float} (h : IsFinite x) :
    (∃ c rest, (text x).toList = c :: rest ∧ (c = '-' ∨ isDigit c = true)) ∧
      ∀ c ∈ (text x).toList, isNumeralChar c = true := by
  obtain ⟨bits, hbits, -⟩ := Option.map_eq_some_iff.mp (ofText?_text h)
  exact chars_of_bitsOfText? hbits

end Treewalk.Number
