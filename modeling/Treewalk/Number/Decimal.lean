import Treewalk.Number.Binary

/-! # Shortest decimals

    A double is written with the fewest decimal digits that read back as the
    same double; of the decimals of that length the one nearest to it is
    taken, and on a tie the one whose last digit is even. -/

namespace Treewalk.Number

/-- The number `digits * 10 ^ exponent`. -/
structure Decimal where
  /-- The significant digits, read as one natural number. -/
  digits : Nat
  /-- The power of ten they are scaled by. -/
  exponent : Int
deriving DecidableEq, Repr

namespace Decimal

/-- Numerator of the value as a fraction. -/
def numerator (d : Decimal) : Nat := d.digits * Nat.pow 10 d.exponent.toNat

/-- Denominator of the value as a fraction. -/
def denominator (d : Decimal) : Nat := Nat.pow 10 (-d.exponent).toNat

/-- Magnitude bits of the double that a reader takes the decimal for. -/
def toBits (d : Decimal) : Nat := nearest d.numerator d.denominator

end Decimal

/-! ### The search -/

/-- How many zeros stand between the point and the first digit of `num / den`,
    for a positive fraction below one.  The first argument bounds the search. -/
def leadingZeros : Nat → Nat → Nat → Nat
  | 0, _, _ => 0
  | n + 1, num, den => if den ≤ num * 10 then 0 else leadingZeros n (num * 10) den + 1

/-- The exponent of the first significant digit of `num / den`. -/
def leadingExponent (num den : Nat) : Int :=
  if den ≤ num then ((Nat.toDigits 10 (num / den)).length : Int) - 1
  else -(leadingZeros 400 num den : Int) - 1

/-- The decimal on the grid `10 ^ exponent` that reads back as the double with
    magnitude bits `bits` and exact value `num / den`, if either neighbour of
    the value on that grid does. -/
def onGrid? (bits num den : Nat) (exponent : Int) : Option Decimal :=
  let top := num * Nat.pow 10 (-exponent).toNat
  let bottom := den * Nat.pow 10 exponent.toNat
  let low := top / bottom
  let lower : Decimal := ⟨low, exponent⟩
  let upper : Decimal := ⟨low + 1, exponent⟩
  match lower.toBits == bits, upper.toBits == bits with
  | true, true =>
    let rest := top % bottom
    if 2 * rest < bottom ∨ (2 * rest = bottom ∧ low % 2 = 0) then some lower else some upper
  | true, false => some lower
  | false, true => some upper
  | false, false => none

/-- The exact decimal value of a dyadic number. -/
def Dyadic.toDecimal (x : Dyadic) : Decimal :=
  if x.exponent < 0 then ⟨x.mantissa * Nat.pow 5 x.exponent.natAbs, x.exponent⟩
  else ⟨x.mantissa * Nat.pow 2 x.exponent.toNat, 0⟩

/-- Moves trailing zeros of the digits into the exponent.  The first argument
    bounds the number of zeros moved. -/
def Decimal.strip : Nat → Decimal → Decimal
  | 0, d => d
  | n + 1, d =>
    if d.digits % 10 = 0 ∧ d.digits ≠ 0 then strip n ⟨d.digits / 10, d.exponent + 1⟩ else d

/-- The shortest decimal that reads back as the finite positive double with the
    given magnitude bits.  Seventeen digits always suffice; should none of the
    grids have a hit, the exact value is taken. -/
def shortest (bits : Nat) : Decimal :=
  let x := Dyadic.ofBits bits
  let lead := leadingExponent x.numerator x.denominator
  let found := (List.range 17).findSome? fun (n : Nat) =>
    onGrid? bits x.numerator x.denominator (lead - n)
  (found.getD x.toDecimal).strip 800

end Treewalk.Number
