import Treewalk.Number.Decimal

/-! # The text of a number

    Numbers are laid out positionally while the exponent of the first digit
    lies in `-4 … 15`, otherwise with a signed exponent of at least two
    digits. -/

namespace Treewalk.Number

/-- What is written after the digits of an integral number. -/
inductive Fraction where
  /-- `7` -/
  | omitted
  /-- `7.0` -/
  | kept
deriving DecidableEq, Repr

namespace Layout

/-- The decimal digits of a natural number. -/
def digits (n : Nat) : List Char := Nat.toDigits 10 n

/-- A run of zeros. -/
def zeros (n : Nat) : List Char := List.replicate n '0'

/-- An exponent with its sign and at least two digits. -/
def exponentText (e : Int) : List Char :=
  let ds := digits e.natAbs
  let padded := if ds.length < 2 then '0' :: ds else ds
  (if e < 0 then '-' else '+') :: padded

/-- The digits `ds`, scaled by `10 ^ exponent`, written with a point. -/
def positional (fraction : Fraction) (ds : List Char) (exponent : Int) : List Char :=
  let lead := exponent + ds.length
  if 0 ≤ exponent then
    ds ++ zeros exponent.toNat ++
      (match fraction with
       | .omitted => []
       | .kept => ['.', '0'])
  else if 0 < lead then ds.take lead.toNat ++ '.' :: ds.drop lead.toNat
  else '0' :: '.' :: zeros (-lead).toNat ++ ds

/-- The digits `ds`, scaled by `10 ^ exponent`, written with an exponent. -/
def scientific (ds : List Char) (exponent : Int) : List Char :=
  let e := exponent + ds.length - 1
  let mantissa := match ds with
    | d :: rest@(_ :: _) => d :: '.' :: rest
    | _ => ds
  mantissa ++ 'e' :: exponentText e

/-- The text of a positive decimal. -/
def decimal (fraction : Fraction) (d : Decimal) : List Char :=
  let ds := digits d.digits
  let e := d.exponent + ds.length - 1
  if -4 ≤ e ∧ e < 16 then positional fraction ds d.exponent else scientific ds d.exponent

/-- The text of the double with the given magnitude bits. -/
def magnitude (fraction : Fraction) (bits : Nat) : List Char :=
  if infinityBits < bits then "nan".toList
  else if bits = infinityBits then "inf".toList
  else if bits = 0 then
    match fraction with
    | .omitted => "0".toList
    | .kept => "0.0".toList
  else decimal fraction (shortest bits)

end Layout

/-- The text of a double given by its 64 bits.  The sign of a zero is shown,
    that of a value that is no number is not. -/
def textOfBits (fraction : Fraction) (bits : Nat) : List Char :=
  let magnitude := bits % signBit
  if signBit ≤ bits ∧ magnitude ≤ infinityBits then '-' :: Layout.magnitude fraction magnitude
  else Layout.magnitude fraction magnitude

/-- The text `print` writes for a number: integral values have no fraction. -/
def text (x : Float) : String := String.ofList (textOfBits .omitted x.toBits.toNat)

/-- The text of a number that always shows a fraction or an exponent. -/
def textWithFraction (x : Float) : String := String.ofList (textOfBits .kept x.toBits.toNat)

/-! ### Numerals of the language -/

/-- The value of a run of decimal digits. -/
def ofDigits (ds : List Char) : Nat := ds.foldl (fun n c => 10 * n + (c.toNat - '0'.toNat)) 0

/-- The decimal that the numeral `whole.fraction` stands for. -/
def ofNumeral (whole fraction : List Char) : Decimal :=
  ⟨ofDigits (whole ++ fraction), -(fraction.length : Int)⟩

/-- The double nearest to a decimal; beyond the greatest double it is infinite. -/
def Decimal.toFloat (d : Decimal) : Float := Float.ofBits (UInt64.ofNat d.toBits)

end Treewalk.Number
